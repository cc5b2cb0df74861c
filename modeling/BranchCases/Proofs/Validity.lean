import BranchCases.Proofs.Numbering
import BranchCases.Proofs.Selecting
import BranchCases.Proofs.Supply

/-
Pools whose branches make one test. Where the pools offer no clause with a condition, only pushes in
front of the test and behind it only what runs on its own, a branch fails for one reason: nothing
stands in front of its test. Main result: the number of valid candidates, whatever the parts are.
-/
namespace BranchCases

def EachRuns (stmts : List Statement) : Prop :=
  ∀ s ∈ stmts, ∃ own, s.flow = .ok own

/-- The branches that the pools allow only push in front of a test, make one and run behind it. -/
structure Pools.TestsOnce (pools : Pools) : Prop where
  pre : OnlyPushes pools.pre
  cond : OnlyPushes pools.cond
  body : EachRuns pools.body
  elbr : pools.elbr = []
  el : ∀ body ∈ pools.el, EachRuns body
  post : EachRuns pools.post

def Branch.isBare (b : Branch) : Bool :=
  b.pre.isEmpty && b.cond.isEmpty

theorem Branch.isBare_iff {b : Branch} : b.isBare ↔ b.pre = [] ∧ b.cond = [] := by
  rw [Branch.isBare, Bool.and_eq_true, List.isEmpty_iff, List.isEmpty_iff]

theorem EachRuns.exists_flow {stmts : List Statement} (h : EachRuns stmts) :
    ∃ own, flowAll stmts = .ok own := by
  induction stmts with
  | nil => exact ⟨[], rfl⟩
  | cons s rest ih =>
      obtain ⟨⟨left, hs⟩, hrest⟩ := List.forall_mem_cons.mp h
      obtain ⟨right, hright⟩ := ih hrest
      exact ⟨left ++ right, flowAll_cons_eq_ok.mpr ⟨left, right, hs, hright, rfl⟩⟩

theorem EachRuns.sublist {stmts pool : List Statement} (h : EachRuns pool)
    (hstmts : stmts.Sublist pool) : EachRuns stmts := by
  intro s hs
  exact h s (hstmts.subset hs)

theorem OnlyPushes.sublist {stmts pool : List Statement} (h : OnlyPushes pool)
    (hstmts : stmts.Sublist pool) : OnlyPushes stmts := by
  intro s hs
  exact h s (hstmts.subset hs)

/-! ## Which candidates are valid -/

section

variable {pools : Pools} (h : pools.TestsOnce) {b : Branch} (hb : b ∈ pools.candidates)

include h hb

theorem Pools.TestsOnce.elbr_eq_nil : b.elbr = [] := by
  obtain ⟨-, -, -, helbr, -, -⟩ := Pools.mem_candidates.mp hb
  rw [h.elbr] at helbr
  exact List.sublist_nil.mp helbr

theorem Pools.TestsOnce.pushesTests : b.PushesTests := by
  obtain ⟨hpre, hcond, -, -, -, -⟩ := Pools.mem_candidates.mp hb
  refine ⟨h.pre.sublist hpre, h.cond.sublist hcond, ?_⟩
  rw [h.elbr_eq_nil hb]
  exact List.forall_mem_nil _

theorem Pools.TestsOnce.runsBehind : b.RunsBehind := by
  obtain ⟨-, -, hbody, -, hel, hpost⟩ := Pools.mem_candidates.mp hb
  refine ⟨(h.body.sublist hbody).exists_flow, ?_, ?_, (h.post.sublist hpost).exists_flow⟩
  · rw [h.elbr_eq_nil hb]
    exact List.forall_mem_nil _
  · intro body hsome
    exact (h.el body (hel body hsome)).exists_flow

/-- The only test is that of the branch, and it fails where no operand was pushed for it. -/
theorem Pools.TestsOnce.exists_error_iff :
    (∃ error, b.flow = .error error) ↔ b.isBare := by
  have hfirst : b.supply 0 = b.pre.length + b.cond.length := rfl
  rw [Branch.isBare_iff]
  constructor
  · rintro ⟨error, herror⟩
    obtain ⟨k, hk, hsupply, -⟩ :=
      Branch.exists_supply_eq (h.pushesTests hb) (h.runsBehind hb) herror
    rw [h.elbr_eq_nil hb, List.length_nil, Nat.le_zero] at hk
    rw [hk, hfirst, Nat.add_eq_zero_iff, List.length_eq_zero_iff,
      List.length_eq_zero_iff] at hsupply
    exact hsupply
  · rintro ⟨hpre, hcond⟩
    have hsupply : b.supply 0 = 0 := by
      rw [hfirst, hpre, hcond]
      rfl
    exact ⟨_, Branch.flow_of_supply_eq (h.pushesTests hb) (Nat.zero_le _) hsupply
      fun j hj => absurd hj (Nat.not_lt_zero j)⟩

theorem Pools.TestsOnce.isValid_eq : b.isValid = !b.isBare := by
  have herror := h.exists_error_iff hb
  cases hflow : b.flow with
  | ok left =>
      have hbare : b.isBare = false := by
        rw [hflow] at herror
        exact Bool.eq_false_iff.mpr fun hbare => nomatch herror.mpr hbare
      rw [Branch.isValid_iff.mpr ⟨left, hflow⟩, hbare]
      rfl
  | error error =>
      rw [herror.mp ⟨error, hflow⟩, Branch.isValid, hflow]
      rfl

end

/-! ## Counting -/

theorem countP_product {α β : Type} (xs : List α) (ys : List β) (p : α → Bool) (q : β → Bool) :
    (xs ×ˢ ys).countP (fun pair => p pair.1 && q pair.2) = xs.countP p * ys.countP q := by
  induction xs with
  | nil => simp
  | cons x xs ih =>
      rw [List.product_cons, List.countP_append, List.countP_map, ih, List.countP_cons,
        Nat.add_mul, Nat.add_comm]
      cases hx : p x with
      | true => simp [Function.comp_def, hx]
      | false => simp [Function.comp_def, hx]

theorem countP_product_fst {α β : Type} (xs : List α) (ys : List β) (p : α → Bool) :
    (xs ×ˢ ys).countP (p ∘ Prod.fst) = xs.countP p * ys.length := by
  have hall := countP_product xs ys p fun _ => true
  simpa [Function.comp_def] using hall

theorem countP_isEmpty_subsets {α : Type} (pool : List α) :
    (subsets pool).countP List.isEmpty = 1 := by
  rw [(subsets_perm_sublists' pool).countP_eq]
  induction pool with
  | nil => rfl
  | cons a pool ih =>
      rw [List.sublists'_cons, List.countP_append, ih, List.countP_map]
      simp [Function.comp_def]

/-- One way to fill `pre` and `cond` leaves both empty. -/
theorem Pools.countP_isBare (pools : Pools) :
    pools.candidates.countP Branch.isBare =
      2 ^ pools.body.length * 2 ^ pools.elbr.length * (1 + pools.el.length) *
        2 ^ pools.post.length := by
  let bare : List Statement × List Statement → Bool := fun head => head.1.isEmpty && head.2.isEmpty
  have hbare : Branch.isBare ∘ Branch.ofSlots =
      (((bare ∘ Prod.fst) ∘ Prod.fst) ∘ Prod.fst) ∘ Prod.fst := rfl
  have hheads : (subsets pools.pre ×ˢ subsets pools.cond).countP bare = 1 := by
    rw [countP_product, countP_isEmpty_subsets, countP_isEmpty_subsets]
  rw [Pools.candidates, combine_eq_map_product, List.countP_map, hbare, countP_product_fst,
    countP_product_fst, countP_product_fst, countP_product_fst, hheads, length_subsets,
    length_subsets, length_alternatives, length_subsets, Nat.one_mul]

theorem Pools.TestsOnce.length_kept {pools : Pools} (h : pools.TestsOnce) :
    (pools.kept fun _ => true).length =
      (2 ^ (pools.pre.length + pools.cond.length) - 1) * 2 ^ pools.body.length *
        (1 + pools.el.length) * 2 ^ pools.post.length := by
  have hkept : (pools.kept fun _ => true).length = pools.candidates.countP fun b => !b.isBare := by
    rw [Pools.kept_eq_filter, ← List.countP_eq_length_filter]
    apply List.countP_congr
    intro b hb
    rw [Branch.isWanted, h.isValid_eq hb, Bool.and_true]
  have hsplit := pools.candidates.length_eq_countP_add_countP Branch.isBare
  have helbr : pools.elbr.length = 0 := by
    rw [h.elbr]
    rfl
  rw [Pools.countP_isBare, Pools.length_candidates, helbr] at hsplit
  simp only [Bool.not_eq_true, Bool.decide_eq_false, Nat.pow_zero, Nat.mul_one] at hsplit
  rw [hkept, Nat.pow_add, Nat.sub_mul, Nat.sub_mul, Nat.sub_mul, Nat.one_mul, hsplit,
    Nat.add_sub_cancel_left]

/-- Where only the test of the branch can fail, the candidates that are rejected are those with
nothing in front of it. All others are kept when the valid ones are accepted, and their number is
that of the ways to fill the slots, less those that leave `pre` and `cond` empty. -/
theorem Pools.kept_all_exact (pools : Pools) (h : pools.TestsOnce) :
    (∀ b ∈ pools.candidates, b.isValid = false ↔ b.pre = [] ∧ b.cond = []) ∧
    (∀ b, b ∈ pools.kept (fun _ => true) ↔
      b ∈ pools.candidates ∧ ¬ (b.pre = [] ∧ b.cond = [])) ∧
    (pools.kept fun _ => true).length =
      (2 ^ (pools.pre.length + pools.cond.length) - 1) * 2 ^ pools.body.length *
        (1 + pools.el.length) * 2 ^ pools.post.length := by
  have hrejected : ∀ b ∈ pools.candidates, b.isValid = false ↔ b.pre = [] ∧ b.cond = [] := by
    intro b hb
    rw [h.isValid_eq hb, Bool.not_eq_false', Branch.isBare_iff]
  refine ⟨hrejected, ?_, h.length_kept⟩
  intro b
  rw [Pools.mem_kept, and_iff_left rfl]
  apply and_congr_right
  intro hb
  rw [← hrejected b hb, Bool.not_eq_false]

theorem OnlyPushes.eachRuns {stmts : List Statement} (h : OnlyPushes stmts) : EachRuns stmts := by
  intro s hs
  obtain ⟨v, rfl⟩ := h s hs
  exact ⟨[v], rfl⟩

/-- Equal parts, nested branches, and alternatives among which one is empty. -/
def nestingPools : Pools where
  pre := pushes [.int 1, .int 1]
  cond := pushes [.nil]
  body := [.branch { cond := pushes [.bool true], body := pushes [.int 2] }]
  el := [[], [.branch { cond := pushes [.nil], post := pushes [.int 4] }]]
  post := pushes [.int 3]

theorem nestingPools_kept_all :
    nestingPools.TestsOnce ∧ (nestingPools.kept fun _ => true).length = 84 ∧
      { cond := pushes [.nil] } ∈ nestingPools.kept (fun _ => true) ∧
      { post := pushes [.int 3] } ∉ nestingPools.kept (fun _ => true) := by
  have htests : nestingPools.TestsOnce := by
    refine ⟨onlyPushes_pushes _, onlyPushes_pushes _, ?_, rfl, ?_, (onlyPushes_pushes _).eachRuns⟩
    · exact List.forall_mem_singleton.mpr ⟨[.int 2], rfl⟩
    · refine List.forall_mem_cons.mpr ⟨List.forall_mem_nil _, ?_⟩
      exact List.forall_mem_singleton.mpr (List.forall_mem_singleton.mpr ⟨[.int 4], rfl⟩)
  obtain ⟨-, hkept, hlength⟩ := nestingPools.kept_all_exact htests
  refine ⟨htests, hlength, ?_, ?_⟩
  · have hcandidate : { cond := pushes [.nil] } ∈ nestingPools.candidates :=
      Pools.mem_candidates.mpr ⟨List.nil_sublist _, List.Sublist.refl _, List.nil_sublist _,
        List.nil_sublist _, nofun, List.nil_sublist _⟩
    exact (hkept _).mpr ⟨hcandidate, fun hbare => nomatch hbare.2⟩
  · intro hmem
    exact ((hkept _).mp hmem).2 ⟨rfl, rfl⟩

end BranchCases
