import BranchCases.Pools
import BranchCases.Proofs.Choosing
import Mathlib.Data.List.ProdSigma
import Mathlib.Data.List.Nodup
import Mathlib.Data.Option.Basic

/-
The place of each candidate. Main result: the place of a branch among the candidates of the
pools is a number in mixed radix with a digit for each slot, so that each branch that the pools
allow is a candidate, and only once if no pool repeats a part.
-/
namespace BranchCases

/-! ## Lists of pairs -/

theorem getElem?_product {α β : Type} {xs : List α} {ys : List β} {i j : Nat} {x : α} {y : β}
    (hx : xs[i]? = some x) (hy : ys[j]? = some y) :
    (xs ×ˢ ys)[i * ys.length + j]? = some (x, y) := by
  obtain ⟨hj, -⟩ := List.getElem?_eq_some_iff.mp hy
  induction xs generalizing i with
  | nil => cases hx
  | cons first xs ih =>
      rw [List.product_cons]
      cases i with
      | zero =>
          cases hx
          have hrow : 0 * ys.length + j < (ys.map (Prod.mk x)).length := by
            rw [List.length_map]
            omega
          rw [List.getElem?_append_left hrow, Nat.zero_mul, Nat.zero_add, List.getElem?_map, hy]
          rfl
      | succ i =>
          have hrow : (i + 1) * ys.length + j =
              (ys.map (Prod.mk first)).length + (i * ys.length + j) := by
            rw [List.length_map, Nat.succ_mul]
            omega
          rw [hrow, List.getElem?_append_right (Nat.le_add_right _ _), Nat.add_sub_cancel_left]
          exact ih hx

/-- The slots of a branch as nested pairs. -/
def Branch.ofSlots : (((((List Statement × List Statement) × List Statement) × List Elbr) ×
    Option (List Statement)) × List Statement) → Branch
  | (((((pre, cond), body), elbr), el), post) => { pre, cond, body, elbr, el, post }

theorem Branch.ofSlots_injective : Function.Injective Branch.ofSlots := by
  intro ⟨⟨⟨⟨⟨pre, cond⟩, body⟩, elbr⟩, el⟩, post⟩ ⟨⟨⟨⟨⟨pre', cond'⟩, body'⟩, elbr'⟩, el'⟩, post'⟩ h
  cases h
  rfl

theorem Branch.ofSlots_eq (b : Branch) :
    Branch.ofSlots (((((b.pre, b.cond), b.body), b.elbr), b.el), b.post) = b := by
  cases b
  rfl

theorem combine_eq_map_product (pres conds bodies : List (List Statement))
    (elbrs : List (List Elbr)) (els : List (Option (List Statement)))
    (posts : List (List Statement)) :
    combine pres conds bodies elbrs els posts =
      (((((pres ×ˢ conds) ×ˢ bodies) ×ˢ elbrs) ×ˢ els) ×ˢ posts).map Branch.ofSlots := by
  simp only [combine, SProd.sprod, List.product, List.flatMap_assoc, List.flatMap_map,
    List.map_flatMap, List.map_map]
  rfl

/-! ## Digits -/

/-- A number for each slot of a branch. -/
structure Digits where
  pre : Nat
  cond : Nat
  body : Nat
  elbr : Nat
  el : Nat
  post : Nat

structure Digits.Below (d bases : Digits) : Prop where
  pre : d.pre < bases.pre
  cond : d.cond < bases.cond
  body : d.body < bases.body
  elbr : d.elbr < bases.elbr
  el : d.el < bases.el
  post : d.post < bases.post

/-- The number that is written with the digits in these bases, the digit of `pre` first. -/
def Digits.number (d bases : Digits) : Nat :=
  ((((d.pre * bases.cond + d.cond) * bases.body + d.body) * bases.elbr + d.elbr) * bases.el +
    d.el) * bases.post + d.post

theorem exists_digit {k m n : Nat} (h : k < m * n) : ∃ i < m, ∃ j < n, i * n + j = k := by
  have hn : 0 < n := Nat.pos_of_mul_pos_left (Nat.zero_lt_of_lt h)
  exact ⟨k / n, Nat.div_lt_of_lt_mul (by rwa [Nat.mul_comm]), k % n, Nat.mod_lt k hn,
    Nat.div_add_mod' k n⟩

theorem digit_cancel {i i' j j' n : Nat} (hj : j < n) (hj' : j' < n)
    (h : i * n + j = i' * n + j') : i = i' ∧ j = j' := by
  have hlow : j = j' := by
    rw [← Nat.mul_add_mod_of_lt (a := i) hj, h, Nat.mul_add_mod_of_lt hj']
  have hhigh : i * n = i' * n := by
    rw [hlow] at h
    exact Nat.add_right_cancel h
  exact ⟨Nat.eq_of_mul_eq_mul_right (Nat.zero_lt_of_lt hj) hhigh, hlow⟩

theorem Digits.exists_number_eq (bases : Digits) {k : Nat}
    (h : k < bases.pre * bases.cond * bases.body * bases.elbr * bases.el * bases.post) :
    ∃ d : Digits, d.Below bases ∧ d.number bases = k := by
  obtain ⟨toEl, htoEl, post, hpost, rfl⟩ := exists_digit h
  obtain ⟨toElbr, htoElbr, el, hel, rfl⟩ := exists_digit htoEl
  obtain ⟨toBody, htoBody, elbr, helbr, rfl⟩ := exists_digit htoElbr
  obtain ⟨toCond, htoCond, body, hbody, rfl⟩ := exists_digit htoBody
  obtain ⟨pre, hpre, cond, hcond, rfl⟩ := exists_digit htoCond
  exact ⟨⟨pre, cond, body, elbr, el, post⟩, ⟨hpre, hcond, hbody, helbr, hel, hpost⟩, rfl⟩

theorem Digits.Below.eq_of_number_eq {bases d d' : Digits} (h : d.Below bases)
    (h' : d'.Below bases) (hnumber : d.number bases = d'.number bases) : d = d' := by
  -- From the last digit to the first: each is the remainder by its base, the rest the quotient.
  obtain ⟨htoEl, hpost⟩ := digit_cancel h.post h'.post hnumber
  obtain ⟨htoElbr, hel⟩ := digit_cancel h.el h'.el htoEl
  obtain ⟨htoBody, helbr⟩ := digit_cancel h.elbr h'.elbr htoElbr
  obtain ⟨htoCond, hbody⟩ := digit_cancel h.body h'.body htoBody
  obtain ⟨hpre, hcond⟩ := digit_cancel h.cond h'.cond htoCond
  cases d
  cases d'
  simp only [Digits.mk.injEq]
  exact ⟨hpre, hcond, hbody, helbr, hel, hpost⟩

/-! ## Candidates by their digits -/

/-- The branch has the subsets with the numbers `d` in its slots; in `el` it has no clause where
that number is zero, and else the clause with that number, counted from one. -/
structure Pools.Picks (pools : Pools) (d : Digits) (b : Branch) : Prop where
  pre : (subsets pools.pre)[d.pre]? = some b.pre
  cond : (subsets pools.cond)[d.cond]? = some b.cond
  body : (subsets pools.body)[d.body]? = some b.body
  elbr : (subsets pools.elbr)[d.elbr]? = some b.elbr
  el : (d.el = 0 ∧ b.el = none) ∨
    ∃ i body, d.el = i + 1 ∧ pools.el[i]? = some body ∧ b.el = some body
  post : (subsets pools.post)[d.post]? = some b.post

/-- The number of ways to fill each slot. -/
def Pools.bases (pools : Pools) : Digits where
  pre := 2 ^ pools.pre.length
  cond := 2 ^ pools.cond.length
  body := 2 ^ pools.body.length
  elbr := 2 ^ pools.elbr.length
  el := 1 + pools.el.length
  post := 2 ^ pools.post.length

theorem length_alternatives (pool : List (List Statement)) :
    (alternatives pool).length = 1 + pool.length := by
  rw [alternatives, List.length_cons, List.length_map, Nat.add_comm]

theorem Pools.length_candidates (pools : Pools) :
    pools.candidates.length =
      2 ^ pools.pre.length * 2 ^ pools.cond.length * 2 ^ pools.body.length *
        2 ^ pools.elbr.length * (1 + pools.el.length) * 2 ^ pools.post.length := by
  simp only [Pools.candidates, combine_eq_map_product, List.length_map, List.length_product,
    length_subsets, length_alternatives]

theorem exists_getElem?_subsets {α : Type} {pool : List α} {i : Nat} (h : i < 2 ^ pool.length) :
    ∃ chosen, (subsets pool)[i]? = some chosen := by
  rw [← length_subsets] at h
  exact ⟨_, List.getElem?_eq_getElem h⟩

theorem exists_alternative {pool : List (List Statement)} {i : Nat} (h : i < 1 + pool.length) :
    ∃ el, (i = 0 ∧ el = none) ∨ ∃ j body, i = j + 1 ∧ pool[j]? = some body ∧ el = some body := by
  cases i with
  | zero => exact ⟨none, Or.inl ⟨rfl, rfl⟩⟩
  | succ j =>
      have hj : j < pool.length := by omega
      exact ⟨some pool[j], Or.inr ⟨j, _, rfl, List.getElem?_eq_getElem hj, rfl⟩⟩

theorem Pools.exists_picks {pools : Pools} {d : Digits} (h : d.Below pools.bases) :
    ∃ b, pools.Picks d b := by
  obtain ⟨pre, hpre⟩ := exists_getElem?_subsets h.pre
  obtain ⟨cond, hcond⟩ := exists_getElem?_subsets h.cond
  obtain ⟨body, hbody⟩ := exists_getElem?_subsets h.body
  obtain ⟨elbr, helbr⟩ := exists_getElem?_subsets h.elbr
  obtain ⟨el, hel⟩ := exists_alternative h.el
  obtain ⟨post, hpost⟩ := exists_getElem?_subsets h.post
  exact ⟨{ pre, cond, body, elbr, el, post }, hpre, hcond, hbody, helbr, hel, hpost⟩

theorem Pools.Picks.getElem?_alternatives {pools : Pools} {d : Digits} {b : Branch}
    (h : pools.Picks d b) : (alternatives pools.el)[d.el]? = some b.el := by
  rcases h.el with ⟨hzero, hnone⟩ | ⟨i, body, hsucc, hbody, hsome⟩
  · rw [hzero, hnone]
    rfl
  · rw [hsucc, hsome, alternatives, List.getElem?_cons_succ, List.getElem?_map, hbody]
    rfl

theorem Pools.Picks.getElem?_candidates {pools : Pools} {d : Digits} {b : Branch}
    (h : pools.Picks d b) : pools.candidates[d.number pools.bases]? = some b := by
  have hhead := getElem?_product h.pre h.cond
  have hclauses := getElem?_product (getElem?_product hhead h.body) h.elbr
  have hplace := getElem?_product (getElem?_product hclauses h.getElem?_alternatives) h.post
  simp only [length_subsets, length_alternatives] at hplace
  rw [Pools.candidates, combine_eq_map_product, List.getElem?_map]
  exact (congrArg (Option.map Branch.ofSlots) hplace).trans (congrArg some b.ofSlots_eq)

/-! ## Which branches are candidates -/

theorem mem_alternatives {pool : List (List Statement)} {el : Option (List Statement)} :
    el ∈ alternatives pool ↔ ∀ body, el = some body → body ∈ pool := by
  cases el with
  | none => simp [alternatives]
  | some body => simp [alternatives]

theorem Pools.mem_candidates {pools : Pools} {b : Branch} :
    b ∈ pools.candidates ↔ b.pre.Sublist pools.pre ∧ b.cond.Sublist pools.cond ∧
      b.body.Sublist pools.body ∧ b.elbr.Sublist pools.elbr ∧
      (∀ body, b.el = some body → body ∈ pools.el) ∧ b.post.Sublist pools.post := by
  rw [Pools.candidates, combine_eq_map_product]
  nth_rewrite 1 [← b.ofSlots_eq]
  rw [List.mem_map_of_injective Branch.ofSlots_injective]
  simp only [List.mem_product, mem_subsets, mem_alternatives, and_assoc]

/-- No pool offers a part twice. -/
structure Pools.Distinct (pools : Pools) : Prop where
  pre : pools.pre.Nodup
  cond : pools.cond.Nodup
  body : pools.body.Nodup
  elbr : pools.elbr.Nodup
  el : pools.el.Nodup
  post : pools.post.Nodup

theorem nodup_alternatives {pool : List (List Statement)} (h : pool.Nodup) :
    (alternatives pool).Nodup := by
  refine List.nodup_cons.mpr ⟨?_, h.map (Option.some_injective _)⟩
  simp

theorem Pools.Distinct.nodup_candidates {pools : Pools} (h : pools.Distinct) :
    pools.candidates.Nodup := by
  rw [Pools.candidates, combine_eq_map_product]
  have hhead := (nodup_subsets h.pre).product (nodup_subsets h.cond)
  have hclauses := (hhead.product (nodup_subsets h.body)).product (nodup_subsets h.elbr)
  have hslots := (hclauses.product (nodup_alternatives h.el)).product (nodup_subsets h.post)
  exact hslots.map Branch.ofSlots_injective

/-- The candidates are numbered in mixed radix. There is one for each number below the product
of the bases, and its digits tell what it has in each slot; so every branch that the pools allow
is among them, exactly once if the pools do not repeat a part. -/
theorem Pools.candidates_exact (pools : Pools) :
    pools.candidates.length =
      2 ^ pools.pre.length * 2 ^ pools.cond.length * 2 ^ pools.body.length *
        2 ^ pools.elbr.length * (1 + pools.el.length) * 2 ^ pools.post.length ∧
    (∀ k < pools.candidates.length,
      ∃! d : Digits, d.Below pools.bases ∧ d.number pools.bases = k) ∧
    (∀ d : Digits, d.Below pools.bases →
      ∃ b, pools.Picks d b ∧ pools.candidates[d.number pools.bases]? = some b) ∧
    (∀ b, b ∈ pools.candidates ↔ b.pre.Sublist pools.pre ∧ b.cond.Sublist pools.cond ∧
      b.body.Sublist pools.body ∧ b.elbr.Sublist pools.elbr ∧
      (∀ body, b.el = some body → body ∈ pools.el) ∧ b.post.Sublist pools.post) ∧
    (pools.Distinct → ∀ b ∈ pools.candidates, pools.candidates.count b = 1) := by
  refine ⟨pools.length_candidates, ?_, ?_, fun b => Pools.mem_candidates, ?_⟩
  · intro k hk
    rw [pools.length_candidates] at hk
    obtain ⟨d, hbelow, hnumber⟩ := Digits.exists_number_eq pools.bases hk
    refine ⟨d, ⟨hbelow, hnumber⟩, ?_⟩
    intro d' ⟨hbelow', hnumber'⟩
    exact hbelow'.eq_of_number_eq hbelow (hnumber'.trans hnumber.symm)
  · intro d hbelow
    obtain ⟨b, hpicks⟩ := Pools.exists_picks hbelow
    exact ⟨b, hpicks, hpicks.getElem?_candidates⟩
  · intro hdistinct b hb
    exact List.count_eq_one_of_mem hdistinct.nodup_candidates hb

/-- Pools without repetitions, with clauses and alternatives among them. -/
def clausePools : Pools where
  cond := pushes [.bool true, .bool false]
  elbr := [{ body := pushes [.int 1] }]
  el := [[], pushes [.int 3333]]

/-- The digits of the last of the 24 candidates. -/
def lastDigits : Digits :=
  { pre := 0, cond := 3, body := 0, elbr := 1, el := 2, post := 0 }

theorem clausePools_candidates_exact :
    clausePools.candidates.length = 24 ∧ clausePools.Distinct ∧
      lastDigits.Below clausePools.bases ∧
      (∃ b, clausePools.Picks lastDigits b ∧ clausePools.candidates[23]? = some b) ∧
      ∀ b ∈ clausePools.candidates, clausePools.candidates.count b = 1 := by
  have hdistinct : clausePools.Distinct := by
    constructor <;> simp [clausePools, pushes]
  have hbelow : lastDigits.Below clausePools.bases :=
    ⟨by decide, by decide, by decide, by decide, by decide, by decide⟩
  obtain ⟨hlength, -, hpicks, -, honce⟩ := clausePools.candidates_exact
  exact ⟨hlength, hdistinct, hbelow, hpicks lastDigits hbelow, honce hdistinct⟩

end BranchCases
