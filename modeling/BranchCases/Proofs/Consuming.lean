import BranchCases.Pattern.Reader

/-
What a reader of search patterns consumes. A reader leaves no more text ahead than it found, and one
that calls for another has consumed a character or goes down a level of nesting. Main result:
reading a pattern never runs out of fuel (`Pattern.read_ne_tooLong`).
-/
namespace BranchCases

open Read

/-! ## Readers that consume -/

/-- From this state a reader consumes at least as many characters as `count` says of its result, and
where it fails it is not because the text is too long. -/
def Read.TakesFrom {α : Type} (s : Reading) (r : Read α) (count : α → Nat) : Prop :=
  match r.run s with
  | .ok (a, left) => left.ahead.length + count a ≤ s.ahead.length
  | .error error => error ≠ .tooLong

/-- So much a reader consumes wherever at most `n` characters stand ahead. -/
def Read.Takes {α : Type} (n : Nat) (r : Read α) (count : α → Nat) : Prop :=
  ∀ s : Reading, s.ahead.length ≤ n → r.TakesFrom s count

section

variable {α β : Type} {n : Nat} {count : α → Nat} {total : β → Nat}

theorem Read.TakesFrom.bind {s : Reading} {r : Read α} {next : α → Read β}
    (h : r.TakesFrom s count)
    (hnext : ∀ a left, left.ahead.length + count a ≤ s.ahead.length →
      (next a).TakesFrom left fun b => total b - count a) :
    (r >>= next).TakesFrom s total := by
  unfold TakesFrom at h hnext ⊢
  rw [StateT.run_bind]
  cases hrun : r.run s with
  | error error =>
      rw [hrun] at h
      exact h
  | ok result =>
      obtain ⟨a, left⟩ := result
      rw [hrun] at h
      have hsecond := hnext a left h
      change match (next a).run left with
        | .ok (b, rest) => rest.ahead.length + total b ≤ s.ahead.length
        | .error error => error ≠ .tooLong
      cases hrun : (next a).run left with
      | error error =>
          rw [hrun] at hsecond
          exact hsecond
      | ok result =>
          rw [hrun] at hsecond
          dsimp only at h hsecond ⊢
          omega

theorem Read.TakesFrom.get {s : Reading} {next : Reading → Read β}
    (h : (next s).TakesFrom s total) : (get >>= next).TakesFrom s total :=
  h

/-- What the first reader has consumed, the second one need not. -/
theorem Read.Takes.bind {r : Read α} {next : α → Read β} (h : Takes n r count)
    (hnext : ∀ a, count a ≤ n → Takes (n - count a) (next a) fun b => total b - count a) :
    Takes n (r >>= next) total := by
  intro s hs
  exact (h s hs).bind fun a left hleft => hnext a (by omega) left (by omega)

theorem Read.Takes.pure {a : α} (h : count a = 0) : Takes n (Pure.pure a) count := by
  intro s _
  change s.ahead.length + count a ≤ s.ahead.length
  rw [h]
  exact Nat.le_refl _

/-- What is consumed may be left out of account. -/
theorem Read.Takes.uncounted {r : Read α} (h : Takes n r count) : Takes n r fun _ => 0 := by
  rw [← bind_pure r]
  exact h.bind fun _ _ => .pure (Nat.zero_sub _)

theorem Read.Takes.throw {error : PatternError} (h : error ≠ .tooLong := by decide) :
    Takes n (MonadExcept.throw error : Read α) count := by
  intro s _
  exact h

theorem Read.Takes.ite {p : Prop} [Decidable p] {r other : Read α} (hthen : Takes n r count)
    (helse : Takes n other count) : Takes n (if p then r else other) count := by
  split
  · exact hthen
  · exact helse

theorem Read.throw_bind (error : PatternError) (next : α → Read β) :
    (throw error : Read α) >>= next = throw error := rfl

theorem takes_get : Takes n (get : Read Reading) fun _ => 0 := by
  intro s _
  exact Nat.le_refl _

theorem takes_peek : Takes n peek fun _ => 0 := by
  intro s _
  exact Nat.le_refl _

theorem takes_modify {change : Reading → Reading}
    (h : ∀ s, (change s).ahead.length ≤ s.ahead.length) :
    Takes n (modify change : Read Unit) fun _ => 0 := by
  intro s _
  exact h s

theorem takes_modifyFlags (flags : Flags) :
    Takes n (modify fun r => { r with flags } : Read Unit) fun _ => 0 :=
  takes_modify fun _ => Nat.le_refl _

theorem takes_monadLift {result : Except PatternError α} (h : result ≠ .error .tooLong) :
    Takes n (liftM result : Read α) fun _ => 0 := by
  intro s _
  cases result with
  | error error => exact fun herror => h (congrArg Except.error herror)
  | ok a => exact Nat.le_refl _

theorem takes_advance (count : Nat) : Takes n (advance count) fun _ => 0 := by
  refine takes_modify fun s => ?_
  rw [List.length_drop]
  exact Nat.sub_le _ _

theorem takes_takeRun (kind : Char → Bool) : Takes n (takeRun kind) fun _ => 0 := by
  intro s _
  exact (List.dropWhile_suffix kind).length_le

theorem takes_next (atEnd : PatternError) (h : atEnd ≠ .tooLong := by decide) :
    Takes n (next atEnd) fun _ => 1 := by
  intro s _
  obtain ⟨ahead, flags, names⟩ := s
  cases ahead with
  | nil => exact h
  | cons c rest => exact Nat.le_refl _

theorem takes_looksAt (word : String) : Takes n (looksAt word) fun _ => 0 := by
  intro s _
  exact Nat.le_refl _

theorem run_skip (word : String) (s : Reading) :
    (skip word).run s =
      if word.toList.isPrefixOf s.ahead then
        .ok (true, { s with ahead := s.ahead.drop word.length })
      else .ok (false, s) := by
  have hrun : (skip word).run s =
      (if word.toList.isPrefixOf s.ahead then
        (do advance word.length; Pure.pure true) else Pure.pure false : Read Bool).run s := rfl
  rw [hrun]
  split <;> rfl

theorem takes_skip (word : String) (h : 0 < word.length := by decide) :
    Takes n (skip word) Bool.toNat := by
  intro s _
  unfold TakesFrom
  rw [run_skip]
  by_cases hprefix : word.toList.isPrefixOf s.ahead
  · rw [if_pos hprefix]
    have hle := (List.isPrefixOf_iff_prefix.mp hprefix).length_le
    rw [String.length_toList] at hle
    change (s.ahead.drop word.length).length + 1 ≤ s.ahead.length
    rw [List.length_drop]
    omega
  · rw [if_neg hprefix]
    exact Nat.le_refl _

/-- A word that stands ahead is a character at least. -/
theorem Read.Takes.ifSkip {word : String} {found missed : Read β}
    (hfound : 1 ≤ n → Takes (n - 1) found fun b => total b - 1) (hmissed : Takes n missed total)
    (hword : 0 < word.length := by decide) :
    Takes n (do if ← skip word then found else missed) total := by
  refine (takes_skip word hword).bind fun b hb => ?_
  cases b with
  | true => exact hfound hb
  | false => exact hmissed

end

variable {n : Nat}

/-! ## Escapes -/

theorem takes_readHex (count : Nat) : Takes n (readHex count) fun _ => 0 := by
  simp only [readHex, pure_bind, throw_bind]
  refine .ifSkip (fun _ => ?_) ?_
  · refine (takes_takeRun _).bind fun digits _ => .ite .throw ((takes_next _).bind fun _ _ => ?_)
    split
    · exact .pure rfl
    · exact .throw
  · refine takes_get.bind fun r _ => .ite .throw ((takes_advance count).bind fun _ _ => ?_)
    split
    · exact .pure rfl
    · exact .throw

theorem takes_readBoundary : Takes n readBoundary fun _ => 0 := by
  simp only [readBoundary, throw_bind]
  refine takes_get.bind fun r _ => ?_
  split
  · refine .ite ?_ (.pure rfl)
    refine (takes_advance 1).bind fun _ _ => (takes_takeRun _).bind fun name _ => ?_
    refine (takes_skip _).uncounted.bind fun _ _ => ?_
    refine .ite .throw ?_
    split
    · exact .pure rfl
    · exact .pure rfl
    · exact .pure rfl
    · exact .pure rfl
    · exact .throw
  · exact .throw
  · exact .pure rfl

theorem takes_readEscape : Takes n readEscape fun _ => 0 := by
  simp only [readEscape]
  refine (takes_next _).bind fun c _ => .ite (.pure rfl) ?_
  refine .ite .throw ?_
  split
  all_goals
    first
    | exact .pure rfl
    | exact .throw
    | exact (takes_readHex _).bind fun _ _ => .pure rfl
    | exact takes_readBoundary.bind fun _ _ => .pure rfl

/-! ## Classes -/

theorem takes_underFlags (set : CharSet) : Takes n (underFlags set) fun _ => 0 :=
  takes_get.bind fun _ _ => .pure rfl

theorem takes_readClassItem : Takes n readClassItem fun _ => 1 := by
  simp only [readClassItem]
  refine (takes_next _).bind fun c _ => ?_
  split
  · refine takes_readEscape.bind fun item _ => ?_
    split
    · exact .throw
    · exact .pure rfl
  · exact .pure rfl

theorem takes_readClassRange : Takes n readClassRange fun _ => 1 := by
  simp only [readClassRange]
  refine takes_readClassItem.bind fun first _ => takes_get.bind fun r _ => ?_
  split
  · exact .throw
  · refine .ite (.pure rfl) ((takes_advance 1).bind fun _ _ => ?_)
    refine takes_readClassItem.uncounted.bind fun last _ => ?_
    split
    · exact .ite (.pure rfl) .throw
    · exact .throw
  · exact .throw
  · exact .pure rfl

theorem takes_readNamedSet : Takes n readNamedSet fun _ => 0 := by
  intro s _
  refine TakesFrom.get ?_
  split
  · next rest hahead =>
      dsimp only
      split
      · next left set hleft hset =>
          have hnamed :
              (if rest.head? == some '^' then rest.drop 1 else rest).length ≤ rest.length := by
            split
            · rw [List.length_drop]
              exact Nat.sub_le _ _
            · exact Nat.le_refl _
          have hsuffix := Nat.le_trans (List.dropWhile_suffix (· != ':')).length_le hnamed
          rw [hleft] at hsuffix
          change left.length ≤ s.ahead.length
          rw [hahead]
          simp only [List.length_cons] at hsuffix ⊢
          omega
      · exact Nat.le_refl _
  · exact Nat.le_refl _

theorem takes_joinClass (before : Option (ClassOp × CharSet)) (after : CharSet) :
    Takes n (joinClass before after) fun _ => 0 := by
  simp only [joinClass]
  split
  · exact .pure rfl
  · refine (takes_underFlags _).bind fun left _ => (takes_underFlags _).bind fun right _ => ?_
    split
    · exact .pure rfl
    · exact .pure rfl
    · exact .pure rfl

theorem takes_readClassOpening : Takes n readClassOpening fun _ => 0 := by
  simp only [readClassOpening]
  refine (takes_skip _).uncounted.bind fun negated _ => ?_
  refine (takes_takeRun _).bind fun hyphens _ => .ite ?_ (.pure rfl)
  exact .ifSkip (fun _ => .pure rfl) (.pure rfl)

/-- The fuel with which a class is read to its end: a character calls for two nested steps. -/
structure ReadsClasses (fuel : Nat) : Prop where
  whole : ∀ n, 2 * n + 2 ≤ fuel → Takes n (readClass fuel) fun _ => 0
  items : ∀ n before set, 2 * n + 1 ≤ fuel → Takes n (readClassItems fuel before set) fun _ => 0

theorem ReadsClasses.whole_succ {fuel : Nat} (ih : ReadsClasses fuel) (h : 2 * n + 2 ≤ fuel + 1) :
    Takes n (readClass (fuel + 1)) fun _ => 0 := by
  rw [readClass]
  refine takes_readClassOpening.bind fun opening _ => ?_
  refine (ih.items n none opening.2 (by omega)).bind fun set _ => ?_
  exact (takes_underFlags set).bind fun _ _ => .pure rfl

theorem ReadsClasses.items_succ {fuel : Nat} (ih : ReadsClasses fuel)
    (before : Option (ClassOp × CharSet)) (set : CharSet) (h : 2 * n + 1 ≤ fuel + 1) :
    Takes n (readClassItems (fuel + 1) before set) fun _ => 0 := by
  have hoperator (op : ClassOp) (hn : 1 ≤ n) : Takes (n - 1)
      (do readClassItems fuel (some (op, ← joinClass before set)) .none) fun _ => 0 := by
    refine (takes_joinClass before set).bind fun left _ => ?_
    exact ih.items (n - 1) _ _ (by omega)
  rw [readClassItems]
  refine .ifSkip (fun _ => takes_joinClass before set) ?_
  refine .ifSkip (hoperator .inter) ?_
  refine .ifSkip (hoperator .diff) ?_
  refine .ifSkip (hoperator .symmDiff) ?_
  refine .ifSkip (fun hn => ?_) ?_
  · refine takes_readNamedSet.bind fun named _ => ?_
    cases named with
    | some member => exact ih.items (n - 1) _ _ (by omega)
    | none =>
        refine (ih.whole (n - 1) (by omega)).bind fun nested _ => ?_
        exact ih.items (n - 1) _ _ (by omega)
  · refine takes_readClassRange.bind fun range hn => ?_
    exact ih.items (n - 1) _ _ (by omega)

theorem readsClasses (fuel : Nat) : ReadsClasses fuel := by
  induction fuel with
  | zero =>
      constructor
      · intro n h
        omega
      · intro n before set h
        omega
  | succ fuel ih =>
      constructor
      · intro n h
        exact ih.whole_succ h
      · intro n before set h
        exact ih.items_succ before set h

/-! ## Repetitions and groups -/

theorem takes_readCount : Takes n readCount fun _ => 0 := by
  simp only [readCount]
  refine (takes_takeRun _).bind fun _ _ => (takes_takeRun _).bind fun digits _ => ?_
  refine (takes_takeRun _).bind fun _ _ => .ite (.pure rfl) ?_
  exact .ite (.pure rfl) .throw

theorem takes_readBounds : Takes n readBounds fun _ => 0 := by
  have hend (m : Nat) (low : Nat) (high : Option Nat) : Takes m (do
      if !(← skip "\x7d") then throw .badCount
      if high.any (· < low) then throw .badCount
      return (low, high) : Read (Nat × Option Nat)) fun _ => 0 := by
    simp only [throw_bind]
    refine (takes_skip _).uncounted.bind fun _ _ => ?_
    refine .ite .throw ?_
    exact .ite .throw (.pure rfl)
  simp only [readBounds, pure_bind, throw_bind] at hend ⊢
  refine takes_readCount.bind fun low _ => ?_
  split
  · refine .ifSkip (fun _ => ?_) (hend _ _ _)
    refine (takes_looksAt _).bind fun _ _ => .ite (hend _ _ _) ?_
    refine takes_readCount.bind fun high _ => ?_
    split
    · exact hend _ _ _
    · exact .throw
  · exact .throw

/-- The bounds of a repetition stand behind an operator. -/
theorem takes_readRepetition : Takes n readRepetition fun bounds => bounds.isSome.toNat := by
  simp only [readRepetition]
  refine .ifSkip (fun _ => .pure rfl) ?_
  refine .ifSkip (fun _ => .pure rfl) ?_
  refine .ifSkip (fun _ => .pure rfl) ?_
  refine .ifSkip (fun _ => ?_) (.pure rfl)
  exact takes_readBounds.bind fun _ _ => .pure rfl

theorem setFlags_ne_tooLong (letters : List Char) (value : Bool) (seen : List Char)
    (flags : Flags) : setFlags letters value seen flags ≠ .error .tooLong := by
  fun_induction setFlags letters value seen flags
  all_goals
    first
    | assumption
    | simp

theorem takes_readGroupName : Takes n readGroupName fun _ => 0 := by
  simp only [readGroupName, throw_bind]
  refine (takes_takeRun _).bind fun name _ => (takes_next _).bind fun _ _ => ?_
  refine takes_get.bind fun r _ => ?_
  split
  · refine .ite .throw (takes_modify fun _ => Nat.le_refl _)
  · exact .throw

theorem takes_readGroupOpening : Takes n readGroupOpening fun _ => 0 := by
  simp only [readGroupOpening]
  refine takes_get.bind fun r _ => ?_
  refine (takes_looksAt _).bind fun _ _ => (takes_looksAt _).bind fun _ _ => ?_
  refine (takes_looksAt _).bind fun _ _ => (takes_looksAt _).bind fun _ _ => ?_
  refine .ite .throw ?_
  refine .ifSkip (fun _ => takes_readGroupName.bind fun _ _ => .pure rfl) ?_
  refine .ifSkip (fun _ => takes_readGroupName.bind fun _ _ => .pure rfl) ?_
  refine .ifSkip (fun _ => ?_) (.pure rfl)
  refine (takes_takeRun _).bind fun letters _ => ?_
  refine (takes_monadLift (setFlags_ne_tooLong _ _ _ _)).bind fun flags _ => ?_
  refine (takes_next _).bind fun c _ => .ite (.pure rfl) ?_
  exact .ite .throw (.pure rfl)

theorem takes_readSingle : Takes n readSingle fun _ => 1 := by
  simp only [readSingle]
  refine takes_get.bind fun r _ => (takes_next _).bind fun c _ => ?_
  split
  · exact .pure rfl
  · exact .pure rfl
  · exact .pure rfl
  · refine takes_readEscape.bind fun escaped _ => ?_
    split
    · exact (takes_underFlags _).bind fun _ _ => .pure rfl
    · exact (takes_underFlags _).bind fun _ _ => .pure rfl
    · exact .pure rfl
  · exact (takes_underFlags _).bind fun _ _ => .pure rfl

/-- The fuel with which a group is read to its end: a character calls for three nested steps, since
a group consists of alternatives, which consist of sequences. -/
structure ReadsGroups (fuel : Nat) : Prop where
  group : ∀ n, 3 * n + 3 ≤ fuel → Takes n (readGroup fuel) fun _ => 0
  alternatives : ∀ n, 3 * n + 2 ≤ fuel → Takes n (readAlternatives fuel) fun _ => 0
  sequence : ∀ n items, 3 * n + 1 ≤ fuel → Takes n (readSequence fuel items) fun _ => 0

theorem ReadsGroups.group_succ {fuel : Nat} (ih : ReadsGroups fuel) (h : 3 * n + 3 ≤ fuel + 1) :
    Takes n (readGroup (fuel + 1)) fun _ => 0 := by
  rw [readGroup]
  simp only [throw_bind]
  refine takes_get.bind fun r _ => takes_readGroupOpening.bind fun opening _ => ?_
  cases opening with
  | directive flags => exact (takes_modifyFlags flags).bind fun _ _ => .pure rfl
  | content flags =>
      refine (takes_modifyFlags flags).bind fun _ _ => ?_
      refine (ih.alternatives n (by omega)).bind fun p _ => ?_
      refine (takes_skip _).uncounted.bind fun _ _ => .ite .throw ?_
      exact (takes_modifyFlags r.flags).bind fun _ _ => .pure rfl

theorem ReadsGroups.alternatives_succ {fuel : Nat} (ih : ReadsGroups fuel)
    (h : 3 * n + 2 ≤ fuel + 1) : Takes n (readAlternatives (fuel + 1)) fun _ => 0 := by
  rw [readAlternatives]
  refine (ih.sequence n [] (by omega)).bind fun first _ => ?_
  refine .ifSkip (fun hn => ?_) (.pure rfl)
  exact (ih.alternatives (n - 1) (by omega)).bind fun _ _ => .pure rfl

theorem ReadsGroups.sequence_succ {fuel : Nat} (ih : ReadsGroups fuel)
    (items : List (Option Pattern)) (h : 3 * n + 1 ≤ fuel + 1) :
    Takes n (readSequence (fuel + 1) items) fun _ => 0 := by
  rw [readSequence]
  refine takes_peek.bind fun ahead _ => .ite (.pure rfl) ?_
  refine takes_readRepetition.bind fun bounds hbounds => ?_
  cases bounds with
  | some bounds =>
      have hn : 1 ≤ n := hbounds
      dsimp only
      split
      · refine (takes_skip _).uncounted.bind fun _ _ => ?_
        exact ih.sequence (n - 1) _ (by omega)
      · exact .throw
  | none =>
      refine .ifSkip (fun hn => ?_) ?_
      · refine (ih.group (n - 1) (by omega)).bind fun p _ => ?_
        exact ih.sequence (n - 1) _ (by omega)
      refine .ifSkip (fun hn => ?_) ?_
      · refine ((readsClasses fuel).whole (n - 1) (by omega)).bind fun set _ => ?_
        exact ih.sequence (n - 1) _ (by omega)
      · refine takes_readSingle.bind fun p hn => ?_
        exact ih.sequence (n - 1) _ (by omega)

theorem readsGroups (fuel : Nat) : ReadsGroups fuel := by
  induction fuel with
  | zero =>
      constructor
      · intro n h
        omega
      · intro n h
        omega
      · intro n items h
        omega
  | succ fuel ih =>
      constructor
      · intro n h
        exact ih.group_succ h
      · intro n h
        exact ih.alternatives_succ h
      · intro n items h
        exact ih.sequence_succ items h

/-- Reading a pattern never runs out of fuel. -/
theorem Pattern.read_ne_tooLong (text : String) : Pattern.read text ≠ .error .tooLong := by
  have htakes := (readsGroups (3 * text.length + 3)).alternatives text.length (by omega)
    { ahead := text.toList } (Nat.le_of_eq String.length_toList)
  unfold Read.TakesFrom at htakes
  unfold Pattern.read
  cases hrun : (readAlternatives (3 * text.length + 3)).run { ahead := text.toList } with
  | error error =>
      rw [hrun] at htakes
      intro h
      exact htakes (Except.error.inj h)
  | ok result =>
      intro h
      change (if result.2.ahead.isEmpty then pure result.1 else throw .groupUnopened :
        Except PatternError Pattern) = _ at h
      split at h <;> cases h

end BranchCases
