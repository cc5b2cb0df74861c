import BranchCases.Proofs.Choosing
import BranchCases.Proofs.Selecting
import BranchCases.Suite

/-
Pools that grow. Main result: whatever is added to the pools and wherever, the branches that
could be put together before keep their order among those that can be put together now, and so
do the branches that a selection keeps.
-/
namespace BranchCases

/-- What these pools offer for a slot, the others offer in the same order among other parts. -/
structure Pools.Within (pools larger : Pools) : Prop where
  pre : pools.pre.Sublist larger.pre
  cond : pools.cond.Sublist larger.cond
  body : pools.body.Sublist larger.body
  elbr : pools.elbr.Sublist larger.elbr
  el : pools.el.Sublist larger.el
  post : pools.post.Sublist larger.post

theorem flatMap_sublist {α β : Type} {xs ys : List α} {f g : α → List β} (h : xs.Sublist ys)
    (hfg : ∀ x, (f x).Sublist (g x)) : (xs.flatMap f).Sublist (ys.flatMap g) :=
  (h.flatMap f).trans (List.Sublist.flatMap_right ys fun x _ => hfg x)

theorem alternatives_sublist {pool larger : List (List Statement)} (h : pool.Sublist larger) :
    (alternatives pool).Sublist (alternatives larger) :=
  (h.map some).cons_cons none

theorem combine_sublist
    {pres pres' conds conds' bodies bodies' posts posts' : List (List Statement)}
    {elbrs elbrs' : List (List Elbr)} {els els' : List (Option (List Statement))}
    (hpre : pres.Sublist pres') (hcond : conds.Sublist conds') (hbody : bodies.Sublist bodies')
    (helbr : elbrs.Sublist elbrs') (hel : els.Sublist els') (hpost : posts.Sublist posts') :
    (combine pres conds bodies elbrs els posts).Sublist
      (combine pres' conds' bodies' elbrs' els' posts') := by
  refine flatMap_sublist hpre fun pre => ?_
  refine flatMap_sublist hcond fun cond => ?_
  refine flatMap_sublist hbody fun body => ?_
  refine flatMap_sublist helbr fun elbr => ?_
  refine flatMap_sublist hel fun el => ?_
  exact hpost.map _

theorem Pools.Within.candidates {pools larger : Pools} (h : pools.Within larger) :
    pools.candidates.Sublist larger.candidates :=
  combine_sublist (subsets_sublist h.pre) (subsets_sublist h.cond) (subsets_sublist h.body)
    (subsets_sublist h.elbr) (alternatives_sublist h.el) (subsets_sublist h.post)

/-- With more on offer no candidate is lost, none that a selection keeps, and their order stays. -/
theorem Pools.candidates_and_kept_sublist (pools larger : Pools) (h : pools.Within larger)
    (accept : Branch → Bool) :
    pools.candidates.Sublist larger.candidates ∧
      (pools.kept accept).Sublist (larger.kept accept) := by
  refine ⟨h.candidates, ?_⟩
  rw [Pools.kept_eq_filter, Pools.kept_eq_filter]
  exact h.candidates.filter _

/-- The outer pools of every suite with more parts before, between and after those of the
condition, and with alternatives. -/
def enclosingPoolsEnlarged : Pools :=
  { enclosingPools with
    cond := pushes [.nil, .int 1111, .string "", .bool true, .bool false, .int 1111]
    el := [[], pushes [.int 3333]] }

theorem enclosingPools_within : enclosingPools.Within enclosingPoolsEnlarged where
  pre := .slnil
  cond := .cons _ (.cons_cons _ (.cons _ (.cons_cons _ (.cons_cons _ (.cons _ .slnil)))))
  body := .slnil
  elbr := .slnil
  el := List.nil_sublist _
  post := .slnil

theorem enclosingPools_candidates_and_kept_sublist :
    enclosingPools.Within enclosingPoolsEnlarged ∧
      enclosingPools.candidates.Sublist enclosingPoolsEnlarged.candidates ∧
      (enclosingPools.kept fun b => b.el.isNone).Sublist
        (enclosingPoolsEnlarged.kept fun b => b.el.isNone) :=
  ⟨enclosingPools_within, Pools.candidates_and_kept_sublist _ _ enclosingPools_within _⟩

end BranchCases
