import BranchCases.Pattern.Basic

/-
Where a search pattern occurs. A pattern leads from one position of a text to another if it takes up
the characters in between. Main result: the positions that are reached are those that the pattern
leads to, however often it allows a repetition (`Pattern.moves_reach`); so it is found in a text
exactly if it leads from a position of the text to another one (`Pattern.occursIn_iff`).
-/
namespace BranchCases

/-- The counts that the bounds of a repetition allow. -/
def AllowsCount (low : Nat) (high : Option Nat) (count : Nat) : Prop :=
  low ≤ count ∧ ∀ bound ∈ high, count ≤ max low bound

/-! ## Steps in a row -/

variable {step : Nat → Nat → Prop} {size : Nat}

/-- From one position to another by so many steps in a row. -/
inductive InARow (step : Nat → Nat → Prop) : Nat → Nat → Nat → Prop
  | none (i : Nat) : InARow step 0 i i
  | more {count i j k : Nat} : InARow step count i j → step j k → InARow step (count + 1) i k

theorem inARow_add {first second i k : Nat} :
    InARow step (first + second) i k ↔
      ∃ j, InARow step first i j ∧ InARow step second j k := by
  induction second generalizing k with
  | zero =>
      constructor
      · intro h
        exact ⟨k, h, .none k⟩
      · rintro ⟨j, hfirst, hsecond⟩
        cases hsecond
        exact hfirst
  | succ second ih =>
      constructor
      · rintro (_ | ⟨hrow, hlast⟩)
        obtain ⟨j, hfirst, hsecond⟩ := ih.mp hrow
        exact ⟨j, hfirst, hsecond.more hlast⟩
      · rintro ⟨j, hfirst, hsecond⟩
        cases hsecond with
        | more hrow hlast => exact (ih.mpr ⟨j, hfirst, hrow⟩).more hlast

/-- A step in a text of `size` characters stays where it is or goes on inside the text. -/
def Onward (size i j : Nat) : Prop :=
  i = j ∨ (i < j ∧ j ≤ size)

theorem Onward.trans {i j k : Nat} (hfirst : Onward size i j) (hsecond : Onward size j k) :
    Onward size i k := by
  unfold Onward at hfirst hsecond ⊢
  omega

section

variable (hstep : ∀ i j, step i j → Onward size i j)

include hstep

theorem InARow.onward {count i j : Nat} (h : InARow step count i j) : Onward size i j := by
  induction h with
  | none i => exact .inl rfl
  | more hrow hlast ih => exact ih.trans (hstep _ _ hlast)

/-- Either one of the steps stays where it is, and then it can be left out as well as made once
more, or each of them goes on by a character at least. -/
theorem InARow.stays_or_goes_on {count i j : Nat} (h : InARow step count i j) :
    (∃ fewer, count = fewer + 1 ∧ InARow step fewer i j ∧ InARow step (count + 1) i j) ∨
      (i + count ≤ j ∧ (count = 0 ∨ j ≤ size)) := by
  induction h with
  | none i => exact .inr ⟨Nat.le_refl i, .inl rfl⟩
  | more hrow hlast ih =>
      obtain ⟨fewer, rfl, hfewer, hfurther⟩ | ⟨hgoes, -⟩ := ih
      · exact .inl ⟨fewer + 1, rfl, hfewer.more hlast, hfurther.more hlast⟩
      · obtain rfl | ⟨hlt, hsize⟩ := hstep _ _ hlast
        · exact .inl ⟨_, rfl, hrow, (hrow.more hlast).more hlast⟩
        · exact .inr ⟨by omega, .inr hsize⟩

/-- More steps than a text has characters cannot all go on in it. -/
theorem InARow.exists_stays {count i j : Nat} (h : InARow step count i j) (hcount : size < count) :
    ∃ fewer, count = fewer + 1 ∧ InARow step fewer i j ∧ InARow step (count + 1) i j := by
  obtain hstays | ⟨hgoes, hend⟩ := h.stays_or_goes_on hstep
  · exact hstays
  · omega

theorem InARow.fewer {count fewer i j : Nat} (h : InARow step count i j) (hsize : size ≤ fewer)
    (hle : fewer ≤ count) : InARow step fewer i j := by
  obtain ⟨extra, rfl⟩ := Nat.exists_eq_add_of_le hle
  clear hle
  induction extra with
  | zero => exact h
  | succ extra ih =>
      obtain ⟨_, hcount, hrow, -⟩ := h.exists_stays hstep (by omega)
      cases hcount
      exact ih hrow

theorem InARow.further {count further i j : Nat} (h : InARow step count i j)
    (hsize : size < count) (hle : count ≤ further) : InARow step further i j := by
  obtain ⟨extra, rfl⟩ := Nat.exists_eq_add_of_le hle
  clear hle
  induction extra with
  | zero => exact h
  | succ extra ih =>
      obtain ⟨_, -, -, hrow⟩ := ih.exists_stays hstep (by omega)
      exact hrow

/-- In a text of `size` characters it is enough to make `size + 1` of the repetitions that have to
be there, and `size` of those that may follow them. -/
theorem exists_allowsCount_iff {low i j : Nat} {high : Option Nat} :
    (∃ further ≤ min ((high.map (· - low)).getD size) size,
      InARow step (min low (size + 1) + further) i j) ↔
      ∃ count, AllowsCount low high count ∧ InARow step count i j := by
  unfold AllowsCount
  constructor
  · rintro ⟨further, hfurther, hrow⟩
    refine ⟨low + further, ⟨Nat.le_add_right low further, ?_⟩, ?_⟩
    · rintro bound rfl
      simp only [Option.map_some, Option.getD_some] at hfurther
      omega
    · by_cases hlow : low ≤ size + 1
      · rwa [Nat.min_eq_left hlow] at hrow
      · exact hrow.further hstep (by omega) (by omega)
  · rintro ⟨count, ⟨hlow, hhigh⟩, hrow⟩
    -- What a count has beyond `low` is cut at `size`; all of it is, where `low` by itself is
    -- more than a text has room for.
    refine ⟨if low ≤ size + 1 then min (count - low) size else 0, ?_, ?_⟩
    · cases high with
      | none =>
          simp only [Option.map_none, Option.getD_none]
          split <;> omega
      | some bound =>
          have hbound := hhigh bound rfl
          simp only [Option.map_some, Option.getD_some]
          split <;> omega
    · split
      · by_cases hcut : count - low ≤ size
        · have hcount : min low (size + 1) + min (count - low) size = count := by omega
          rwa [hcount]
        · exact hrow.fewer hstep (by omega) (by omega)
      · exact hrow.fewer hstep (by omega) (by omega)

end

/-! ## Sets of positions -/

/-- A function on sets of positions takes each position to where steps from it end. -/
def Moves (move : Positions → Positions) (step : Nat → Nat → Prop) : Prop :=
  ∀ (start : Positions) (j : Nat), (move start).testBit j ↔ ∃ i, start.testBit i ∧ step i j

section

variable {move other : Positions → Positions} {next : Nat → Nat → Prop}

theorem Moves.congr (h : Moves move step) (hstep : ∀ i j, step i j ↔ next i j) :
    Moves move next := by
  have heq : step = next := by
    funext i j
    exact propext (hstep i j)
  rwa [heq] at h

theorem Moves.id : Moves (fun start => start) fun i j => i = j := by
  intro start j
  simp

theorem Moves.comp (hfirst : Moves move step) (hsecond : Moves other next) :
    Moves (fun start => other (move start)) fun i k => ∃ j, step i j ∧ next j k := by
  intro start k
  rw [hsecond]
  constructor
  · rintro ⟨j, hj, hnext⟩
    obtain ⟨i, hi, hstep⟩ := (hfirst start j).mp hj
    exact ⟨i, hi, j, hstep, hnext⟩
  · rintro ⟨i, hi, j, hstep, hnext⟩
    exact ⟨j, (hfirst start j).mpr ⟨i, hi, hstep⟩, hnext⟩

theorem Moves.or (hfirst : Moves move step) (hsecond : Moves other next) :
    Moves (fun start => move start ||| other start) fun i j => step i j ∨ next i j := by
  intro start j
  rw [Nat.testBit_or, Bool.or_eq_true, hfirst, hsecond, ← exists_or]
  simp only [and_or_left]

theorem Moves.repeat (h : Moves move step) (count : Nat) :
    Moves (Nat.repeat move count) (InARow step count) := by
  induction count with
  | zero =>
      refine Moves.id.congr fun i j => ?_
      constructor
      · rintro rfl
        exact .none i
      · rintro ⟨⟩
        rfl
  | succ count ih =>
      refine (ih.comp h).congr fun i k => ?_
      constructor
      · rintro ⟨j, hrow, hlast⟩
        exact hrow.more hlast
      · rintro (_ | ⟨hrow, hlast⟩)
        exact ⟨_, hrow, hlast⟩

/-- Adding what one more step reaches, so many times, is to take at most so many steps. -/
theorem Moves.repeat_or (h : Moves move step) (most : Nat) :
    Moves (Nat.repeat (fun found => found ||| move found) most) fun i j =>
      ∃ count ≤ most, InARow step count i j := by
  refine ((Moves.id.or h).repeat most).congr fun i j => ?_
  induction most generalizing j with
  | zero =>
      constructor
      · rintro ⟨⟩
        exact ⟨0, Nat.le_refl 0, .none i⟩
      · rintro ⟨count, hcount, hrow⟩
        cases Nat.le_zero.mp hcount
        cases hrow
        exact .none i
  | succ most ih =>
      constructor
      · rintro (_ | ⟨hrow, hlast⟩)
        obtain ⟨count, hcount, hcounted⟩ := (ih _).mp hrow
        obtain rfl | hlast := hlast
        · exact ⟨count, Nat.le_succ_of_le hcount, hcounted⟩
        · exact ⟨count + 1, Nat.succ_le_succ hcount, hcounted.more hlast⟩
      · rintro ⟨count, hcount, hrow⟩
        cases hrow with
        | none => exact ((ih _).mpr ⟨0, Nat.zero_le most, .none i⟩).more (.inl rfl)
        | more hrow hlast =>
            exact ((ih _).mpr ⟨_, Nat.le_of_succ_le_succ hcount, hrow⟩).more (.inr hlast)

end

theorem testBit_positionsWhere (count : Nat) (test : Nat → Bool) (i : Nat) :
    (positionsWhere count test).testBit i ↔ i < count ∧ test i := by
  induction count with
  | zero => simp [positionsWhere]
  | succ count ih =>
      have hsucc : positionsWhere (count + 1) test =
          if test count then positionsWhere count test ||| 1 <<< count
          else positionsWhere count test := by
        rw [positionsWhere, List.range_succ, List.foldl_append]
        rfl
      have hbit : (1 <<< count).testBit i ↔ count = i := by
        rw [Nat.one_shiftLeft, Nat.testBit_two_pow, decide_eq_true_eq]
      rw [hsucc]
      split
      · rw [Nat.testBit_or, Bool.or_eq_true, ih, hbit]
        grind
      · rw [ih]
        grind

theorem Moves.filter (count : Nat) (test : Nat → Bool) :
    Moves (fun start => start &&& positionsWhere count test) fun i j =>
      i = j ∧ i < count ∧ test i := by
  intro start j
  rw [Nat.testBit_and, Bool.and_eq_true, testBit_positionsWhere]
  constructor
  · rintro ⟨hj, hcount, htest⟩
    exact ⟨j, hj, rfl, hcount, htest⟩
  · rintro ⟨i, hi, rfl, hcount, htest⟩
    exact ⟨hi, hcount, htest⟩

theorem Moves.shift : Moves (fun start => start <<< 1) fun i j => j = i + 1 := by
  intro start j
  rw [Nat.testBit_shiftLeft]
  cases j with
  | zero => simp
  | succ j => simp

/-! ## Patterns -/

/-- The pattern takes up the characters of the text from one position to the other. -/
def Pattern.Leads (text : Array Char) : Pattern → Nat → Nat → Prop
  | .empty, i, j => i = j
  | .one set, i, j => j = i + 1 ∧ ∃ c, text[i]? = some c ∧ set.contains c
  | .anchor place, i, j =>
    i = j ∧ i ≤ text.size ∧ place.holds (if i = 0 then none else text[i - 1]?) text[i]?
  | .sequence first second, i, k => ∃ j, first.Leads text i j ∧ second.Leads text j k
  | .either first second, i, j => first.Leads text i j ∨ second.Leads text i j
  | .repeated p low high, i, j =>
    ∃ count, AllowsCount low high count ∧ InARow (p.Leads text) count i j

theorem Pattern.Leads.onward {text : Array Char} {p : Pattern} {i j : Nat}
    (h : p.Leads text i j) : Onward text.size i j := by
  induction p generalizing i j with
  | empty => exact .inl h
  | one set =>
      obtain ⟨rfl, c, hc, -⟩ := h
      obtain ⟨hi, -⟩ := Array.getElem?_eq_some_iff.mp hc
      exact .inr ⟨Nat.lt_succ_self i, hi⟩
  | anchor place => exact .inl h.1
  | sequence first second ihfirst ihsecond =>
      obtain ⟨k, hfirst, hsecond⟩ := h
      exact (ihfirst hfirst).trans (ihsecond hsecond)
  | either first second ihfirst ihsecond =>
      cases h with
      | inl hfirst => exact ihfirst hfirst
      | inr hsecond => exact ihsecond hsecond
  | repeated p low high ih =>
      obtain ⟨count, -, hrow⟩ := h
      exact hrow.onward fun _ _ => ih

/-- The positions that a pattern reaches are those that it leads to. -/
theorem Pattern.moves_reach (text : Array Char) (p : Pattern) :
    Moves (p.reach text) (p.Leads text) := by
  induction p with
  | empty => exact Moves.id
  | one set =>
      refine ((Moves.filter text.size _).comp Moves.shift).congr fun i j => ?_
      constructor
      · rintro ⟨_, ⟨rfl, -, hset⟩, rfl⟩
        exact ⟨rfl, (Option.any_eq_true _ _).mp hset⟩
      · rintro ⟨rfl, c, hc, hset⟩
        obtain ⟨hi, -⟩ := Array.getElem?_eq_some_iff.mp hc
        exact ⟨i, ⟨rfl, hi, (Option.any_eq_true _ _).mpr ⟨c, hc, hset⟩⟩, rfl⟩
  | anchor place =>
      refine (Moves.filter (text.size + 1) _).congr fun i j => ?_
      rw [Nat.lt_succ_iff]
      rfl
  | sequence first second ihfirst ihsecond => exact ihfirst.comp ihsecond
  | either first second ihfirst ihsecond => exact ihfirst.or ihsecond
  | repeated p low high ih =>
      refine ((ih.repeat _).comp (ih.repeat_or _)).congr fun i k => ?_
      refine Iff.trans ?_ (exists_allowsCount_iff fun _ _ => Pattern.Leads.onward)
      constructor
      · rintro ⟨j, hneeded, further, hmost, hfurther⟩
        exact ⟨further, hmost, inARow_add.mpr ⟨j, hneeded, hfurther⟩⟩
      · rintro ⟨further, hmost, hrow⟩
        obtain ⟨j, hneeded, hfurther⟩ := inARow_add.mp hrow
        exact ⟨j, hneeded, further, hmost, hfurther⟩

/-- A pattern occurs in a text where it leads from one position to another of the text. -/
theorem Pattern.occursIn_iff (p : Pattern) (text : String) :
    p.occursIn text ↔ ∃ i j, i ≤ j ∧ j ≤ text.length ∧ p.Leads text.toList.toArray i j := by
  have hsize : text.toList.toArray.size = text.length := by
    rw [List.size_toArray, String.length_toList]
  have hstart (i : Nat) :
      (1 <<< (text.toList.toArray.size + 1) - 1).testBit i ↔ i ≤ text.length := by
    rw [Nat.one_shiftLeft, Nat.testBit_two_pow_sub_one, decide_eq_true_eq, hsize,
      Nat.lt_succ_iff]
  have hreach := p.moves_reach text.toList.toArray (1 <<< (text.toList.toArray.size + 1) - 1)
  rw [Pattern.occursIn, bne_iff_ne]
  constructor
  · intro hne
    obtain ⟨j, hj⟩ := Nat.exists_testBit_of_ne_zero hne
    obtain ⟨i, hi, hleads⟩ := (hreach j).mp hj
    rw [hstart] at hi
    have honward := hleads.onward
    rw [hsize] at honward
    obtain rfl | ⟨hlt, hle⟩ := honward
    · exact ⟨i, i, Nat.le_refl i, hi, hleads⟩
    · exact ⟨i, j, Nat.le_of_lt hlt, hle, hleads⟩
  · rintro ⟨i, j, hij, hj, hleads⟩ hzero
    have hbit := (hreach j).mpr ⟨i, (hstart i).mpr (Nat.le_trans hij hj), hleads⟩
    rw [hzero, Nat.zero_testBit] at hbit
    cases hbit

end BranchCases
