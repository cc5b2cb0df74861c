import BranchCases.Proofs.Numbering

/-
The count of candidates in 64 bits. The factors of the slots are multiplied from left to right, and
the first of them that cannot be computed, or the first product, decides how the count fails. Main
result: the count is exact where it fits, and otherwise the overflow is that of a power only where
a pool of 64 parts or more meets a product that still fits.
-/
namespace BranchCases

/-- The six slots of a branch. -/
inductive Slot where
  | pre | cond | body | elbr | el | post

/-- The slots in the order in which their factors are multiplied. -/
def Slot.inOrder : List Slot :=
  [.pre, .cond, .body, .elbr, .el, .post]

def Pools.size (pools : Pools) : Slot → Nat
  | .pre => pools.pre.length
  | .cond => pools.cond.length
  | .body => pools.body.length
  | .elbr => pools.elbr.length
  | .el => pools.el.length
  | .post => pools.post.length

/-- In how many ways the pools fill a slot. -/
def Pools.ways (pools : Pools) : Slot → Nat
  | .el => 1 + pools.size .el
  | slot => 2 ^ pools.size slot

/-- The number of ways to fill several slots, whatever its size. -/
def Pools.product (pools : Pools) (slots : List Slot) : Nat :=
  (slots.map pools.ways).prod

/-- The number of subsets of the pool of the slot does not fit in 64 bits. -/
def Pools.Oversized (pools : Pools) (slot : Slot) : Prop :=
  slot ≠ .el ∧ 64 ≤ pools.size slot

/-- One of the slots is oversized while the product before it, on top of `count`, still fits. -/
def Pools.PowerOverflows (pools : Pools) (count : Nat) (slots : List Slot) : Prop :=
  ∃ before slot after, slots = before ++ slot :: after ∧ pools.Oversized slot ∧
    count * pools.product before < 2 ^ 64

/-- The factor of a slot, where it is a number of 64 bits. -/
def Pools.factor (pools : Pools) : Slot → Except CountOverflow Nat
  | .el => .ok (1 + pools.size .el)
  | slot => subsetCount (pools.size slot)

def Pools.multiply (pools : Pools) (count : Nat) (slot : Slot) : Except CountOverflow Nat :=
  pools.factor slot >>= boundedProduct count

/-- What a count of several slots comes to, on top of `count`. -/
inductive Pools.Counts (pools : Pools) (count : Nat) (slots : List Slot) :
    Except CountOverflow Nat → Prop where
  | exact (hfits : count * pools.product slots < 2 ^ 64) :
      Counts pools count slots (.ok (count * pools.product slots))
  | power (hpower : pools.PowerOverflows count slots) : Counts pools count slots (.error .power)
  | product (hexceeds : 2 ^ 64 ≤ count * pools.product slots)
      (hpower : ¬ pools.PowerOverflows count slots) : Counts pools count slots (.error .product)

/-! ## One slot -/

@[simp] theorem Pools.product_nil (pools : Pools) : pools.product [] = 1 := rfl

@[simp] theorem Pools.product_cons (pools : Pools) (slot : Slot) (rest : List Slot) :
    pools.product (slot :: rest) = pools.ways slot * pools.product rest := rfl

theorem Pools.product_append (pools : Pools) (before after : List Slot) :
    pools.product (before ++ after) = pools.product before * pools.product after := by
  simp [Pools.product]

theorem Pools.ways_pos (pools : Pools) (slot : Slot) : 0 < pools.ways slot := by
  cases slot with
  | el => exact Nat.add_pos_left Nat.one_pos _
  | pre | cond | body | elbr | post => exact Nat.two_pow_pos _

theorem Pools.product_pos (pools : Pools) (slots : List Slot) : 0 < pools.product slots := by
  unfold Pools.product
  rw [List.prod_pos_iff_forall_pos_nat]
  simp [pools.ways_pos]

theorem Pools.Oversized.le_ways {pools : Pools} {slot : Slot} (h : pools.Oversized slot) :
    2 ^ 64 ≤ pools.ways slot := by
  have hpower : 2 ^ 64 ≤ 2 ^ pools.size slot := Nat.pow_le_pow_right (by omega) h.2
  cases slot with
  | el => exact absurd rfl h.1
  | pre | cond | body | elbr | post => exact hpower

theorem Pools.factor_of_oversized {pools : Pools} {slot : Slot} (h : pools.Oversized slot) :
    pools.factor slot = .error .power := by
  have hsize : ¬ pools.size slot < 64 := Nat.not_lt.mpr h.2
  cases slot with
  | el => exact absurd rfl h.1
  | pre | cond | body | elbr | post => exact if_neg hsize

theorem Pools.factor_of_not_oversized {pools : Pools} {slot : Slot}
    (h : ¬ pools.Oversized slot) : pools.factor slot = .ok (pools.ways slot) := by
  have hsize : slot ≠ .el → pools.size slot < 64 := by
    intro hslot
    by_contra hle
    exact h ⟨hslot, Nat.not_lt.mp hle⟩
  cases slot with
  | el => rfl
  | pre | cond | body | elbr | post => exact if_pos (hsize (by simp))

theorem Pools.multiply_of_oversized {pools : Pools} {slot : Slot} (count : Nat)
    (h : pools.Oversized slot) : pools.multiply count slot = .error .power := by
  rw [Pools.multiply, Pools.factor_of_oversized h]
  rfl

theorem Pools.multiply_of_fits {pools : Pools} {count : Nat} {slot : Slot}
    (h : ¬ pools.Oversized slot) (hfits : count * pools.ways slot < 2 ^ 64) :
    pools.multiply count slot = .ok (count * pools.ways slot) := by
  rw [Pools.multiply, Pools.factor_of_not_oversized h]
  exact if_pos hfits

theorem Pools.multiply_of_exceeds {pools : Pools} {count : Nat} {slot : Slot}
    (h : ¬ pools.Oversized slot) (hexceeds : 2 ^ 64 ≤ count * pools.ways slot) :
    pools.multiply count slot = .error .product := by
  rw [Pools.multiply, Pools.factor_of_not_oversized h]
  exact if_neg (Nat.not_lt.mpr hexceeds)

/-! ## All slots -/

theorem Pools.powerOverflows_cons (pools : Pools) {count : Nat} (hfits : count < 2 ^ 64)
    (slot : Slot) (rest : List Slot) : pools.PowerOverflows count (slot :: rest) ↔
      pools.Oversized slot ∨ pools.PowerOverflows (count * pools.ways slot) rest := by
  constructor
  · rintro ⟨before, large, after, hslots, hover, hbefore⟩
    cases before with
    | nil =>
        cases hslots
        exact Or.inl hover
    | cons first before =>
        cases hslots
        rw [Pools.product_cons, ← Nat.mul_assoc] at hbefore
        exact Or.inr ⟨before, large, after, rfl, hover, hbefore⟩
  · rintro (hover | ⟨before, large, after, rfl, hover, hbefore⟩)
    · exact ⟨[], slot, rest, rfl, hover, by simpa using hfits⟩
    · refine ⟨slot :: before, large, after, rfl, hover, ?_⟩
      rwa [Pools.product_cons, ← Nat.mul_assoc]

/-- A product that does not fit stays so, whatever it is multiplied by. -/
theorem Pools.le_mul_product (pools : Pools) {count : Nat} (h : 2 ^ 64 ≤ count)
    (slots : List Slot) : 2 ^ 64 ≤ count * pools.product slots :=
  h.trans (Nat.le_mul_of_pos_right count (pools.product_pos slots))

theorem Pools.not_powerOverflows {pools : Pools} {count : Nat} (h : 2 ^ 64 ≤ count)
    (slots : List Slot) : ¬ pools.PowerOverflows count slots := by
  rintro ⟨before, slot, after, -, -, hbefore⟩
  exact absurd (pools.le_mul_product h before) (Nat.not_le.mpr hbefore)

theorem Pools.PowerOverflows.le_mul_product {pools : Pools} {count : Nat} {slots : List Slot}
    (h : pools.PowerOverflows count slots) (hpos : 0 < count) :
    2 ^ 64 ≤ count * pools.product slots := by
  obtain ⟨before, slot, after, rfl, hover, -⟩ := h
  have hbefore : 0 < count * pools.product before := Nat.mul_pos hpos (pools.product_pos before)
  have hslot : 2 ^ 64 ≤ count * pools.product before * pools.ways slot :=
    hover.le_ways.trans (Nat.le_mul_of_pos_left _ hbefore)
  have hall := pools.le_mul_product hslot after
  rwa [Nat.mul_assoc, Nat.mul_assoc, ← Pools.product_cons, ← Pools.product_append] at hall

theorem Pools.mul_product_cons (pools : Pools) (count : Nat) (slot : Slot) (rest : List Slot) :
    count * pools.product (slot :: rest) = count * pools.ways slot * pools.product rest :=
  (Nat.mul_assoc _ _ _).symm

theorem Pools.Counts.cons {pools : Pools} {count : Nat} {slot : Slot} {rest : List Slot}
    {result : Except CountOverflow Nat} (hfits : count < 2 ^ 64) (hslot : ¬ pools.Oversized slot)
    (h : pools.Counts (count * pools.ways slot) rest result) :
    pools.Counts count (slot :: rest) result := by
  have hpower := pools.powerOverflows_cons hfits slot rest
  rw [or_iff_right hslot] at hpower
  cases h with
  | exact hproduct =>
      rw [← Pools.mul_product_cons] at hproduct ⊢
      exact .exact hproduct
  | power hover => exact .power (hpower.mpr hover)
  | product hexceeds hnot =>
      rw [← Pools.mul_product_cons] at hexceeds
      exact .product hexceeds fun hover => hnot (hpower.mp hover)

theorem Pools.counts_foldlM (pools : Pools) (slots : List Slot) {count : Nat}
    (hpos : 0 < count) (hfits : count < 2 ^ 64) :
    pools.Counts count slots (slots.foldlM pools.multiply count) := by
  induction slots generalizing count with
  | nil =>
      have hcount : count * pools.product [] = count := Nat.mul_one count
      have hexact : pools.Counts count [] (.ok (count * pools.product [])) :=
        .exact (hcount.trans_lt hfits)
      rwa [hcount] at hexact
  | cons slot rest ih =>
      rw [List.foldlM_cons]
      by_cases hslot : pools.Oversized slot
      · rw [Pools.multiply_of_oversized count hslot]
        exact .power ((pools.powerOverflows_cons hfits slot rest).mpr (Or.inl hslot))
      · by_cases hnext : count * pools.ways slot < 2 ^ 64
        · rw [Pools.multiply_of_fits hslot hnext]
          exact (ih (Nat.mul_pos hpos (pools.ways_pos slot)) hnext).cons hfits hslot
        · have hexceeds := Nat.not_lt.mp hnext
          rw [Pools.multiply_of_exceeds hslot hexceeds]
          refine .product ?_ ?_
          · rw [Pools.mul_product_cons]
            exact pools.le_mul_product hexceeds rest
          · rw [pools.powerOverflows_cons hfits, or_iff_right hslot]
            exact Pools.not_powerOverflows hexceeds rest

theorem subsetCount_boundedProduct_one (n : Nat) :
    subsetCount n >>= boundedProduct 1 = subsetCount n := by
  unfold subsetCount
  split
  · have hfits : 1 * Nat.pow 2 n < Nat.pow 2 64 := by
      rw [Nat.one_mul]
      exact Nat.pow_lt_pow_right (by omega) ‹n < 64›
    have hproduct : boundedProduct 1 (Nat.pow 2 n) = .ok (1 * Nat.pow 2 n) := if_pos hfits
    rwa [Nat.one_mul] at hproduct
  · rfl

/-- The first factor is taken as it is, which is as good as a product with one. -/
theorem Pools.candidateCount_eq (pools : Pools) :
    pools.candidateCount = Slot.inOrder.foldlM pools.multiply 1 := by
  have hfirst : pools.multiply 1 .pre = subsetCount pools.pre.length :=
    subsetCount_boundedProduct_one pools.pre.length
  rw [Slot.inOrder, List.foldlM_cons, hfirst]
  simp only [List.foldlM_cons, List.foldlM_nil, Pools.multiply, bind_assoc, bind_pure]
  rfl

theorem Pools.product_inOrder (pools : Pools) :
    pools.product Slot.inOrder =
      2 ^ pools.pre.length * 2 ^ pools.cond.length * 2 ^ pools.body.length *
        2 ^ pools.elbr.length * (1 + pools.el.length) * 2 ^ pools.post.length := by
  simp [Slot.inOrder, Pools.ways, Pools.size, Nat.mul_assoc]

/-- Where the number of candidates fits in 64 bits, the count is that number. Where it does not,
the count fails: by a power if some pool of 64 parts or more comes up while the product of the slots
before it still fits, and else by a product. -/
theorem Pools.candidateCount_exact (pools : Pools) :
    pools.product Slot.inOrder =
      2 ^ pools.pre.length * 2 ^ pools.cond.length * 2 ^ pools.body.length *
        2 ^ pools.elbr.length * (1 + pools.el.length) * 2 ^ pools.post.length ∧
    pools.candidates.length = pools.product Slot.inOrder ∧
    (∀ n, pools.candidateCount = .ok n ↔
      pools.product Slot.inOrder < 2 ^ 64 ∧ n = pools.product Slot.inOrder) ∧
    (pools.candidateCount = .error .power ↔
      ∃ before slot after, Slot.inOrder = before ++ slot :: after ∧ slot ≠ .el ∧
        64 ≤ pools.size slot ∧ pools.product before < 2 ^ 64) ∧
    (pools.candidateCount = .error .product ↔
      2 ^ 64 ≤ pools.product Slot.inOrder ∧ pools.candidateCount ≠ .error .power) := by
  have hcounts := pools.counts_foldlM Slot.inOrder Nat.one_pos (by decide)
  rw [← pools.candidateCount_eq] at hcounts
  have hpower : pools.PowerOverflows 1 Slot.inOrder ↔
      ∃ before slot after, Slot.inOrder = before ++ slot :: after ∧ slot ≠ .el ∧
        64 ≤ pools.size slot ∧ pools.product before < 2 ^ 64 := by
    simp only [Pools.PowerOverflows, Pools.Oversized, Nat.one_mul, and_assoc]
  have hlarge (hover : pools.PowerOverflows 1 Slot.inOrder) :
      2 ^ 64 ≤ pools.product Slot.inOrder := by
    simpa only [Nat.one_mul] using hover.le_mul_product Nat.one_pos
  refine ⟨pools.product_inOrder, pools.length_candidates.trans pools.product_inOrder.symm, ?_⟩
  rw [← hpower]
  generalize pools.candidateCount = result at hcounts
  cases hcounts with
  | exact hfits =>
      rw [Nat.one_mul] at hfits ⊢
      refine ⟨?_, ?_, ?_⟩
      · intro n
        rw [Except.ok.injEq, and_iff_right hfits, eq_comm]
      · exact iff_of_false nofun fun hover => absurd hfits (Nat.not_lt.mpr (hlarge hover))
      · exact iff_of_false nofun fun h => absurd hfits (Nat.not_lt.mpr h.1)
  | power hover =>
      refine ⟨?_, iff_of_true rfl hover, ?_⟩
      · intro n
        exact iff_of_false nofun fun h => absurd h.1 (Nat.not_lt.mpr (hlarge hover))
      · exact iff_of_false nofun fun h => h.2 rfl
  | product hexceeds hnot =>
      rw [Nat.one_mul] at hexceeds
      refine ⟨?_, iff_of_false nofun hnot, iff_of_true rfl ⟨hexceeds, nofun⟩⟩
      intro n
      exact iff_of_false nofun fun h => absurd h.1 (Nat.not_lt.mpr hexceeds)

/-- The third factor does not fit in 64 bits, but neither does the product before it. -/
def overfullPools : Pools where
  pre := pushes (List.replicate 32 .nil)
  cond := pushes (List.replicate 32 .nil)
  body := pushes (List.replicate 64 .nil)

example : overfullPools.candidateCount = .error .product := by
  rfl

end BranchCases
