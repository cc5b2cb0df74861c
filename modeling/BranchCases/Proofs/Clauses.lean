import BranchCases.Proofs.Numbering
import BranchCases.Proofs.Places

/-
Clauses over pools of statements. Main result: the clauses with condition and body from two pools
are numbered by their two subsets, those of an `el` pool are the accepted subsets, and pools that
offer all of them have as many candidates as there are ways to choose places among the clauses.
-/
namespace BranchCases

def Elbr.ofParts : List Statement × List Statement → Elbr
  | (cond, body) => { cond, body }

theorem Elbr.ofParts_injective : Function.Injective Elbr.ofParts := by
  intro ⟨cond, body⟩ ⟨cond', body'⟩ h
  cases h
  rfl

section

variable (cond body : List Statement)

theorem elbrClauses_eq_map_product :
    elbrClauses cond body = (subsets cond ×ˢ subsets body).map Elbr.ofParts := by
  simp only [elbrClauses, SProd.sprod, List.product, List.map_flatMap, List.map_map]
  rfl

theorem length_elbrClauses : (elbrClauses cond body).length = 2 ^ (cond.length + body.length) := by
  rw [elbrClauses_eq_map_product, List.length_map, List.length_product, length_subsets,
    length_subsets, Nat.pow_add]

variable {cond body}

theorem getElem?_elbrClauses {i j : Nat} {clause : Elbr}
    (hcond : (subsets cond)[i]? = some clause.cond)
    (hbody : (subsets body)[j]? = some clause.body) :
    (elbrClauses cond body)[i * 2 ^ body.length + j]? = some clause := by
  have hplace := getElem?_product hcond hbody
  rw [length_subsets] at hplace
  rw [elbrClauses_eq_map_product, List.getElem?_map, hplace]
  cases clause
  rfl

/-- The number of a clause has two digits: that of its condition, then that of its body. -/
theorem exists_clause {k : Nat} (hk : k < 2 ^ (cond.length + body.length)) :
    ∃ clause, (elbrClauses cond body)[k]? = some clause ∧
      (subsets cond)[k / 2 ^ body.length]? = some clause.cond ∧
      (subsets body)[k % 2 ^ body.length]? = some clause.body := by
  rw [Nat.pow_add, Nat.mul_comm] at hk
  obtain ⟨c, hc⟩ := exists_getElem?_subsets (Nat.div_lt_of_lt_mul hk)
  obtain ⟨b, hb⟩ := exists_getElem?_subsets (Nat.mod_lt k (Nat.two_pow_pos body.length))
  refine ⟨{ cond := c, body := b }, ?_, hc, hb⟩
  rw [← Nat.div_add_mod' k (2 ^ body.length)]
  exact getElem?_elbrClauses hc hb

theorem mem_elbrClauses {clause : Elbr} :
    clause ∈ elbrClauses cond body ↔ clause.cond.Sublist cond ∧ clause.body.Sublist body := by
  have hparts : Elbr.ofParts (clause.cond, clause.body) = clause := by
    cases clause
    rfl
  rw [elbrClauses_eq_map_product, ← hparts, List.mem_map_of_injective Elbr.ofParts_injective,
    List.mem_product, mem_subsets, mem_subsets]
  rfl

theorem nodup_elbrClauses (hcond : cond.Nodup) (hbody : body.Nodup) :
    (elbrClauses cond body).Nodup := by
  rw [elbrClauses_eq_map_product]
  exact ((nodup_subsets hcond).product (nodup_subsets hbody)).map Elbr.ofParts_injective

end

theorem mem_elClauses {pool body : List Statement} {accept : List Statement → Bool} :
    body ∈ elClauses pool accept ↔ body.Sublist pool ∧ accept body := by
  rw [elClauses, List.mem_filter, mem_subsets]

/-- Clauses over pools are enumerated exactly. Those with a condition are numbered by two digits,
for the subset of the one pool and the subset of the other; each one that the pools allow is there,
only once where they repeat no part. Those of an `el` pool are the accepted ones, in the order of
the subsets. So where a branch may hold any of them, its clauses are chosen by rising places among
them all, and the number of candidates is a power of a power. -/
theorem clauses_exact :
    (∀ cond body : List Statement,
      (elbrClauses cond body).length = 2 ^ (cond.length + body.length) ∧
      (∀ k < 2 ^ (cond.length + body.length),
        ∃ clause, (elbrClauses cond body)[k]? = some clause ∧
          (subsets cond)[k / 2 ^ body.length]? = some clause.cond ∧
          (subsets body)[k % 2 ^ body.length]? = some clause.body) ∧
      (∀ clause, clause ∈ elbrClauses cond body ↔
        clause.cond.Sublist cond ∧ clause.body.Sublist body) ∧
      (cond.Nodup → body.Nodup →
        ∀ clause ∈ elbrClauses cond body, (elbrClauses cond body).count clause = 1)) ∧
    (∀ (pool : List Statement) (accept : List Statement → Bool),
      elClauses pool accept = (subsets pool).filter accept ∧
      ∀ body, body ∈ elClauses pool accept ↔ body.Sublist pool ∧ accept body) ∧
    ∀ (pools : Pools) (cond body pool : List Statement) (accept : List Statement → Bool),
      let clauses := elbrClauses cond body
      let offered := { pools with elbr := clauses, el := elClauses pool accept }
      (∀ b ∈ offered.candidates,
        ∃ places, Rising clauses.length places ∧ StandAt clauses places b.elbr) ∧
      offered.candidates.length =
        2 ^ pools.pre.length * 2 ^ pools.cond.length * 2 ^ pools.body.length *
          2 ^ 2 ^ (cond.length + body.length) * (1 + (elClauses pool accept).length) *
            2 ^ pools.post.length := by
  refine ⟨?_, ?_, ?_⟩
  · intro cond body
    refine ⟨length_elbrClauses cond body, fun k hk => exists_clause hk,
      fun clause => mem_elbrClauses, ?_⟩
    intro hcond hbody clause hclause
    exact List.count_eq_one_of_mem (nodup_elbrClauses hcond hbody) hclause
  · intro pool accept
    exact ⟨rfl, fun body => mem_elClauses⟩
  · intro pools cond body pool accept
    dsimp only
    constructor
    · intro b hb
      obtain ⟨-, -, -, helbr, -, -⟩ := Pools.mem_candidates.mp hb
      exact exists_rising_of_sublist helbr
    · rw [Pools.length_candidates, length_elbrClauses]

theorem clauses_exact_truths :
    (pushes [.bool true, .bool false]).Nodup ∧ (pushes [.int 1]).Nodup ∧
      (∃ clause, (elbrClauses (pushes [.bool true, .bool false]) (pushes [.int 1]))[5]? =
          some clause ∧
        clause.cond = pushes [.bool false] ∧ clause.body = pushes [.int 1] ∧
        (elbrClauses (pushes [.bool true, .bool false]) (pushes [.int 1])).count clause = 1) ∧
      { clausePools with
        elbr := elbrClauses (pushes [.bool true, .bool false]) (pushes [.int 1])
        el := elClauses (pushes [.int 3333]) fun body => !body.isEmpty
          : Pools }.candidates.length = 2048 := by
  have hcond : (pushes [.bool true, .bool false]).Nodup := by simp [pushes]
  have hbody : (pushes [.int 1]).Nodup := List.nodup_singleton _
  obtain ⟨hclauses, -, hpools⟩ := clauses_exact
  obtain ⟨-, hnumber, -, hcount⟩ := hclauses (pushes [.bool true, .bool false]) (pushes [.int 1])
  obtain ⟨clause, hclause, hc, hb⟩ := hnumber 5 (by decide)
  refine ⟨hcond, hbody, ⟨clause, hclause, (Option.some.inj hc).symm, (Option.some.inj hb).symm,
    hcount hcond hbody clause (List.mem_of_getElem? hclause)⟩, ?_⟩
  exact (hpools clausePools _ _ (pushes [.int 3333]) _).2

end BranchCases
