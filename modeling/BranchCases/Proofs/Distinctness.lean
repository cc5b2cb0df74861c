import BranchCases.Proofs.Numbering
import BranchCases.Proofs.Output
import BranchCases.Proofs.TestLines

/-
Tests that differ. Where the pools offer nothing but pushes, a branch has no branch in it to
which one of its words might belong instead. Main result: if such pools do not repeat a part, no
two candidates have the same source, and no two lines of their nests are equal.
-/
namespace BranchCases

/-! ## Parts without branches -/

/-- A push whose literal has no quote in it. -/
def Statement.IsPlain : Statement → Prop
  | .push v => v.QuoteFree
  | .branch _ => False

/-- A sequence of pushes without quotes. -/
def PlainAll (stmts : List Statement) : Prop :=
  ∀ s ∈ stmts, s.IsPlain

def Elbr.IsPlain (clause : Elbr) : Prop :=
  PlainAll clause.cond ∧ PlainAll clause.body

structure Branch.IsPlain (b : Branch) : Prop where
  pre : PlainAll b.pre
  cond : PlainAll b.cond
  body : PlainAll b.body
  elbr : ∀ clause ∈ b.elbr, clause.IsPlain
  el : ∀ body ∈ b.el, PlainAll body
  post : PlainAll b.post

structure Pools.IsPlain (pools : Pools) : Prop where
  pre : PlainAll pools.pre
  cond : PlainAll pools.cond
  body : PlainAll pools.body
  elbr : ∀ clause ∈ pools.elbr, clause.IsPlain
  el : ∀ body ∈ pools.el, PlainAll body
  post : PlainAll pools.post

theorem Pools.IsPlain.candidate {pools : Pools} (h : pools.IsPlain) {b : Branch}
    (hb : b ∈ pools.candidates) : b.IsPlain := by
  obtain ⟨hpre, hcond, hbody, helbr, hel, hpost⟩ := Pools.mem_candidates.mp hb
  constructor
  · intro s hs
    exact h.pre s (hpre.subset hs)
  · intro s hs
    exact h.cond s (hcond.subset hs)
  · intro s hs
    exact h.body s (hbody.subset hs)
  · intro clause hclause
    exact h.elbr clause (helbr.subset hclause)
  · intro body hbody
    exact h.el body (hel body hbody)
  · intro s hs
    exact h.post s (hpost.subset hs)

theorem itemsAll_pushes (values : List Value) : itemsAll (pushes values) = values.map .push := by
  induction values with
  | nil => rfl
  | cons v values ih => exact congrArg (Item.push v :: ·) ih

theorem literalsAll_pushes (values : List Value) : literalsAll (pushes values) = values := by
  induction values with
  | nil => rfl
  | cons v values ih => exact congrArg (v :: ·) ih

theorem PlainAll.onlyPushes {stmts : List Statement} (h : PlainAll stmts) : OnlyPushes stmts := by
  intro s hs
  have hplain := h s hs
  cases s with
  | push v => exact ⟨v, rfl⟩
  | branch b => exact absurd hplain id

theorem PlainAll.exists_pushes {stmts : List Statement} (h : PlainAll stmts) :
    ∃ values, stmts = pushes values ∧ ∀ v ∈ values, v.QuoteFree := by
  obtain ⟨values, rfl⟩ := h.onlyPushes.exists_pushes
  refine ⟨values, rfl, ?_⟩
  intro v hv
  exact h (.push v) (List.mem_map_of_mem hv)

theorem PlainAll.eq_of_itemsAll_eq {u v : List Statement} (hu : PlainAll u) (hv : PlainAll v)
    (h : itemsAll u = itemsAll v) : u = v := by
  obtain ⟨values, rfl, -⟩ := hu.exists_pushes
  obtain ⟨values', rfl, -⟩ := hv.exists_pushes
  rw [itemsAll_pushes, itemsAll_pushes] at h
  have hpush : Function.Injective Item.push := fun v w he => Item.push.inj he
  rw [List.map_injective_iff.mpr hpush h]

theorem PlainAll.literals {stmts : List Statement} (h : PlainAll stmts) :
    ∀ v ∈ literalsAll stmts, v.QuoteFree := by
  obtain ⟨values, rfl, hvalues⟩ := h.exists_pushes
  rw [literalsAll_pushes]
  exact hvalues

/-- Among the items of pushes there is no core. -/
theorem PlainAll.core_notMem {stmts : List Statement} (h : PlainAll stmts) (cond body : List Item)
    (arms : List Arm) (el : Option (List Item)) : Item.core cond body arms el ∉ itemsAll stmts := by
  obtain ⟨values, rfl, -⟩ := h.exists_pushes
  rw [itemsAll_pushes]
  intro hmem
  obtain ⟨v, -, hv⟩ := List.mem_map.mp hmem
  cases hv

theorem eq_of_itemsClauses_eq {elbr elbr' : List Elbr} (h : ∀ clause ∈ elbr, clause.IsPlain)
    (h' : ∀ clause ∈ elbr', clause.IsPlain) (he : itemsClauses elbr = itemsClauses elbr') :
    elbr = elbr' := by
  induction elbr generalizing elbr' with
  | nil =>
      cases elbr' with
      | nil => rfl
      | cons clause' elbr' =>
          obtain ⟨cond', body'⟩ := clause'
          cases he
  | cons clause elbr ih =>
      obtain ⟨cond, body⟩ := clause
      cases elbr' with
      | nil => cases he
      | cons clause' elbr' =>
          obtain ⟨cond', body'⟩ := clause'
          obtain ⟨⟨hcond, hbody⟩, helbr⟩ := List.forall_mem_cons.mp h
          obtain ⟨⟨hcond', hbody'⟩, helbr'⟩ := List.forall_mem_cons.mp h'
          obtain ⟨harm, hrest⟩ := List.cons.inj he
          obtain ⟨hconds, hbodies⟩ := Arm.mk.inj harm
          obtain rfl : cond = cond' := hcond.eq_of_itemsAll_eq hcond' hconds
          obtain rfl : body = body' := hbody.eq_of_itemsAll_eq hbody' hbodies
          rw [ih helbr helbr' hrest]

theorem eq_of_itemsAlternative_eq {el el' : Option (List Statement)}
    (h : ∀ body ∈ el, PlainAll body) (h' : ∀ body ∈ el', PlainAll body)
    (he : itemsAlternative el = itemsAlternative el') : el = el' := by
  cases el with
  | none =>
      cases el' with
      | none => rfl
      | some body' => cases he
  | some body =>
      cases el' with
      | none => cases he
      | some body' =>
          rw [(h body rfl).eq_of_itemsAll_eq (h' body' rfl) (Option.some.inj he)]

theorem literalsClauses_quoteFree {elbr : List Elbr} (h : ∀ clause ∈ elbr, clause.IsPlain) :
    ∀ v ∈ literalsClauses elbr, v.QuoteFree := by
  induction elbr with
  | nil => exact List.forall_mem_nil _
  | cons clause elbr ih =>
      obtain ⟨cond, body⟩ := clause
      obtain ⟨⟨hcond, hbody⟩, helbr⟩ := List.forall_mem_cons.mp h
      simp only [literalsClauses, List.forall_mem_append]
      exact ⟨⟨hcond.literals, hbody.literals⟩, ih helbr⟩

theorem literalsAlternative_quoteFree {el : Option (List Statement)}
    (h : ∀ body ∈ el, PlainAll body) : ∀ v ∈ literalsAlternative el, v.QuoteFree := by
  cases el with
  | none => exact List.forall_mem_nil _
  | some body => exact (h body rfl).literals

/-! ## The items of a branch and of a nest -/

/-- Where no branch stands beside the core, the items tell what each slot holds. -/
theorem Branch.slots_of_items_eq {a b : Branch} (hpre : PlainAll a.pre) (hpost : PlainAll a.post)
    (h : a.items = b.items) :
    itemsAll a.pre = itemsAll b.pre ∧ itemsAll a.cond = itemsAll b.cond ∧
      itemsAll a.body = itemsAll b.body ∧ itemsClauses a.elbr = itemsClauses b.elbr ∧
      itemsAlternative a.el = itemsAlternative b.el ∧ itemsAll a.post = itemsAll b.post := by
  obtain ⟨pre, cond, body, elbr, el, post⟩ := a
  obtain ⟨pre', cond', body', elbr', el', post'⟩ := b
  -- The core of `b` is none of the items beside the core of `a`, so it is that core.
  obtain ⟨hpres, hcores, hposts⟩ := (List.append_cons_inj_of_notMem
    (hpre.core_notMem _ _ _ _) (hpost.core_notMem _ _ _ _)).mp h
  obtain ⟨hconds, hbodies, hclauses, hels⟩ := Item.core.inj hcores
  exact ⟨hpres, hconds, hbodies, hclauses, hels, hposts⟩

/-- The items of a branch with a new body tell the body's items and all of the branch besides. -/
theorem Branch.IsPlain.eq_of_items_withBody_eq {a b : Branch} (ha : a.IsPlain) (hb : b.IsPlain)
    {body body' : List Statement} (h : (a.withBody body).items = (b.withBody body').items) :
    a.withBody [] = b.withBody [] ∧ itemsAll body = itemsAll body' := by
  obtain ⟨hpre, hcond, hbody, helbr, hel, hpost⟩ :=
    Branch.slots_of_items_eq (a := a.withBody body) ha.pre ha.post h
  refine ⟨?_, hbody⟩
  obtain ⟨pre, cond, own, elbr, el, post⟩ := a
  obtain ⟨pre', cond', own', elbr', el', post'⟩ := b
  obtain rfl : pre = pre' := ha.pre.eq_of_itemsAll_eq hb.pre hpre
  obtain rfl : cond = cond' := ha.cond.eq_of_itemsAll_eq hb.cond hcond
  obtain rfl : elbr = elbr' := eq_of_itemsClauses_eq ha.elbr hb.elbr helbr
  obtain rfl : el = el' := eq_of_itemsAlternative_eq ha.el hb.el hel
  obtain rfl : post = post' := ha.post.eq_of_itemsAll_eq hb.post hpost
  rfl

theorem Branch.withBody_body (b : Branch) : b.withBody b.body = b := by
  cases b
  rfl

theorem Branch.IsPlain.quoteFree_withBody {b : Branch} (h : b.IsPlain) {body : List Statement}
    (hbody : ∀ v ∈ literalsAll body, v.QuoteFree) : (b.withBody body).QuoteFree := by
  obtain ⟨pre, cond, own, elbr, el, post⟩ := b
  simp only [Branch.QuoteFree, Branch.withBody, Branch.literals, List.forall_mem_append]
  exact ⟨⟨⟨⟨⟨h.pre.literals, h.cond.literals⟩, hbody⟩, literalsClauses_quoteFree h.elbr⟩,
    literalsAlternative_quoteFree h.el⟩, h.post.literals⟩

theorem Branch.IsPlain.quoteFree {b : Branch} (h : b.IsPlain) : b.QuoteFree := by
  rw [← b.withBody_body]
  exact h.quoteFree_withBody h.body.literals

theorem Branch.IsPlain.quoteFree_graft {outer inner : Branch} (houter : outer.IsPlain)
    (hinner : inner.IsPlain) : (outer.graft inner).QuoteFree := by
  refine houter.quoteFree_withBody ?_
  rw [literalsAll, literalsAll, List.append_nil]
  exact hinner.quoteFree

theorem Branch.IsPlain.eq_of_source_eq {a b : Branch} (ha : a.IsPlain) (hb : b.IsPlain)
    (h : a.source = b.source) : a = b := by
  have hitems := Branch.items_eq_of_source_eq ha.quoteFree hb.quoteFree h
  rw [← a.withBody_body, ← b.withBody_body] at hitems
  obtain ⟨hrest, hbody⟩ := ha.eq_of_items_withBody_eq hb hitems
  calc a = (a.withBody []).withBody a.body := a.withBody_body.symm
    _ = (b.withBody []).withBody b.body := by rw [hrest, ha.body.eq_of_itemsAll_eq hb.body hbody]
    _ = b := b.withBody_body

/-- The source of a nest tells the outer branch, unless that had a body, and the inner one. -/
theorem Branch.IsPlain.eq_of_source_graft_eq {outer outer' inner inner' : Branch}
    (houter : outer.IsPlain) (houter' : outer'.IsPlain) (hinner : inner.IsPlain)
    (hinner' : inner'.IsPlain) (hempty : outer.body = []) (hempty' : outer'.body = [])
    (h : (outer.graft inner).source = (outer'.graft inner').source) :
    outer = outer' ∧ inner = inner' := by
  have hitems := Branch.items_eq_of_source_eq (houter.quoteFree_graft hinner)
    (houter'.quoteFree_graft hinner') h
  obtain ⟨hrest, hbody⟩ := houter.eq_of_items_withBody_eq houter' hitems
  constructor
  · rw [← outer.withBody_body, ← outer'.withBody_body, hempty, hempty', hrest]
  · simp only [itemsAll, Statement.items, List.append_nil] at hbody
    exact hinner.eq_of_source_eq hinner' (Branch.source_eq_of_items_eq hbody)

/-! ## Candidates and nests -/

theorem Pools.Distinct.nodup_kept {pools : Pools} (h : pools.Distinct) (accept : Branch → Bool) :
    (pools.kept accept).Nodup := by
  rw [Pools.kept_eq_filter]
  exact h.nodup_candidates.filter _

theorem Pools.nodup_sources {pools : Pools} (hplain : pools.IsPlain) (hdistinct : pools.Distinct) :
    (pools.candidates.map Branch.source).Nodup := by
  apply List.Nodup.map_on
  · intro a ha b hb h
    exact (hplain.candidate ha).eq_of_source_eq (hplain.candidate hb) h
  · exact hdistinct.nodup_candidates

theorem Pools.IsPlain.kept {pools : Pools} (h : pools.IsPlain) {accept : Branch → Bool}
    {b : Branch} (hb : b ∈ pools.kept accept) : b.IsPlain :=
  h.candidate ((Pools.mem_kept accept).mp hb).1

theorem Pools.body_eq_nil_of_mem_kept {pools : Pools} (h : pools.body = [])
    {accept : Branch → Bool} {b : Branch} (hb : b ∈ pools.kept accept) : b.body = [] := by
  have hcandidate := ((Pools.mem_kept accept).mp hb).1
  obtain ⟨-, -, hbody, -⟩ := Pools.mem_candidates.mp hcandidate
  rw [h] at hbody
  exact List.sublist_nil.mp hbody

section

variable {outer inner : Pools} (houter : outer.IsPlain) (hinner : inner.IsPlain)
  (hempty : outer.body = []) {accept accept' : Branch → Bool}

include houter hinner

theorem quoteFree_of_mem_product {pair : Branch × Branch}
    (h : pair ∈ outer.kept accept ×ˢ inner.kept accept') : (pair.1.graft pair.2).QuoteFree := by
  obtain ⟨ho, hi⟩ := List.mem_product.mp h
  exact (houter.kept ho).quoteFree_graft (hinner.kept hi)

include hempty

theorem pair_eq_of_source_eq {pair pair' : Branch × Branch}
    (h : pair ∈ outer.kept accept ×ˢ inner.kept accept')
    (h' : pair' ∈ outer.kept accept ×ˢ inner.kept accept')
    (hsource : (pair.1.graft pair.2).source = (pair'.1.graft pair'.2).source) : pair = pair' := by
  obtain ⟨ho, hi⟩ := List.mem_product.mp h
  obtain ⟨ho', hi'⟩ := List.mem_product.mp h'
  obtain ⟨houters, hinners⟩ := Branch.IsPlain.eq_of_source_graft_eq (houter.kept ho)
    (houter.kept ho') (hinner.kept hi) (hinner.kept hi') (Pools.body_eq_nil_of_mem_kept hempty ho)
    (Pools.body_eq_nil_of_mem_kept hempty ho') hsource
  exact Prod.ext houters hinners

variable (hdistinct : outer.Distinct) (hdistinct' : inner.Distinct)

include hdistinct hdistinct'

theorem nodup_nest_sources : ((outer.kept accept ×ˢ inner.kept accept').map
    fun pair => (pair.1.graft pair.2).source).Nodup := by
  apply List.Nodup.map_on
  · intro pair hpair pair' hpair' h
    exact pair_eq_of_source_eq houter hinner hempty hpair hpair' h
  · exact (hdistinct.nodup_kept accept).product (hdistinct'.nodup_kept accept')

theorem nodup_nest_lines (options : GenerateOptions) :
    ((wantedPairs options (outer.kept accept) (inner.kept accept')).map
      (pairLine options.format)).Nodup := by
  apply List.Nodup.map_on
  · intro pair hpair pair' hpair' h
    have hmem := (List.mem_filter.mp hpair).1
    have hmem' := (List.mem_filter.mp hpair').1
    have hsource := (eq_of_testLine_eq (quoteFree_of_mem_product houter hinner hmem)
      (quoteFree_of_mem_product houter hinner hmem') h).1
    exact pair_eq_of_source_eq houter hinner hempty hmem hmem' hsource
  · exact ((hdistinct.nodup_kept accept).product (hdistinct'.nodup_kept accept')).filter _

end

/-- No test is made twice. Pools of pushes that repeat no part give candidates with sources of
their own; and if no outer branch has a body that would be replaced, the nests have sources of
their own as well and are emitted as lines that all differ. -/
theorem Pools.nodup_sources_and_lines :
    (∀ pools : Pools, pools.IsPlain → pools.Distinct →
      (pools.candidates.map Branch.source).Nodup) ∧
    ∀ outer inner : Pools, outer.IsPlain → outer.Distinct → inner.IsPlain → inner.Distinct →
      outer.body = [] → ∀ accept accept' : Branch → Bool,
        ((outer.kept accept ×ˢ inner.kept accept').map
          fun pair => (pair.1.withBody [.branch pair.2]).source).Nodup ∧
        ∀ (options : GenerateOptions) (sink : Sink), sink.limit = none → ∃ lines,
          testCases options.format
            (wantedPairs options (outer.kept accept) (inner.kept accept')) = .ok lines ∧
          (emitGrafts options (outer.kept accept) (inner.kept accept')).run sink =
            .ok lines.length { sink with written := sink.written ++ linesBytes lines } ∧
          lines.Nodup := by
  refine ⟨fun pools hplain hdistinct => Pools.nodup_sources hplain hdistinct, ?_⟩
  intro outer inner houter hdistinct hinner hdistinct' hempty accept accept'
  refine ⟨nodup_nest_sources houter hinner hempty hdistinct hdistinct', ?_⟩
  intro options sink hlimit
  have hvalid : ∀ b ∈ outer.kept accept, b.isValid := fun b => Pools.isValid_of_mem_kept accept
  have hvalid' : ∀ b ∈ inner.kept accept', b.isValid := fun b => Pools.isValid_of_mem_kept accept'
  have hrun := (writes_emitGrafts hvalid hvalid' options).fits sink
    (Sink.fits_of_limit_none hlimit _)
  refine ⟨_, testCases_eq_ok _ (isValid_of_mem_wantedPairs hvalid hvalid' options), ?_,
    nodup_nest_lines houter hinner hempty hdistinct hdistinct' options⟩
  rw [List.length_map]
  exact hrun

theorem plainAll_pushes {values : List Value} (h : ∀ v ∈ values, v.QuoteFree) :
    PlainAll (pushes values) := by
  intro s hs
  obtain ⟨v, hv, rfl⟩ := List.mem_map.mp hs
  exact h v hv

theorem plainAll_of_mem_elClauses {pool body : List Statement} {accept : List Statement → Bool}
    (h : PlainAll pool) (hbody : body ∈ elClauses pool accept) : PlainAll body := by
  intro s hs
  exact h s ((mem_subsets.mp (List.mem_filter.mp hbody).1).subset hs)

theorem enclosingPools_isPlain : enclosingPools.IsPlain where
  pre := List.forall_mem_nil _
  cond := plainAll_pushes (by decide)
  body := List.forall_mem_nil _
  elbr := List.forall_mem_nil _
  el := List.forall_mem_nil _
  post := List.forall_mem_nil _

theorem enclosingPools_distinct : enclosingPools.Distinct := by
  constructor <;> simp [enclosingPools, pushes]

theorem enclosedElPools_isPlain : enclosedElPools.IsPlain where
  pre := plainAll_pushes (by decide)
  cond := plainAll_pushes (by decide)
  body := plainAll_pushes (by decide)
  elbr := List.forall_mem_nil _
  el := fun _ hbody => plainAll_of_mem_elClauses (plainAll_pushes (by decide)) hbody
  post := plainAll_pushes (by decide)

theorem enclosedElPools_distinct : enclosedElPools.Distinct where
  pre := List.nodup_singleton _
  cond := by simp [enclosedElPools, enclosedPools, pushes]
  body := List.nodup_singleton _
  elbr := List.nodup_nil
  el := by
    have hpool : (pushes [.int 3333]).Nodup := List.nodup_singleton _
    exact (nodup_subsets hpool).filter fun body => !body.isEmpty
  post := List.nodup_singleton _

theorem brEl_nodup_sources_and_lines :
    enclosingPools.IsPlain ∧ enclosingPools.Distinct ∧ enclosedElPools.IsPlain ∧
      enclosedElPools.Distinct ∧ enclosingPools.body = [] ∧
      (enclosedElPools.candidates.map Branch.source).Nodup ∧
      ∃ lines, testCases .test (wantedPairs {} (enclosingPools.kept fun _ => true)
          (enclosedElPools.kept fun b => !b.body.isEmpty && b.el.isSome)) = .ok lines ∧
        lines.Nodup := by
  obtain ⟨hcandidates, hnests⟩ := Pools.nodup_sources_and_lines
  obtain ⟨lines, hlines, -, hnodup⟩ := (hnests enclosingPools enclosedElPools
    enclosingPools_isPlain enclosingPools_distinct enclosedElPools_isPlain
    enclosedElPools_distinct rfl (fun _ => true)
    fun b => !b.body.isEmpty && b.el.isSome).2 {} {} rfl
  exact ⟨enclosingPools_isPlain, enclosingPools_distinct, enclosedElPools_isPlain,
    enclosedElPools_distinct, rfl,
    hcandidates enclosedElPools enclosedElPools_isPlain enclosedElPools_distinct,
    lines, hlines, hnodup⟩

end BranchCases
