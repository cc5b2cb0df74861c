import BranchCases.Proofs.SharedStack
import BranchCases.Proofs.Tokens
import BranchCases.Assertion

/-
A source is read in one way only. Nothing closes a branch, but no sequence can be followed by
`elbr` or `el`: a clause belongs to the last branch before it whose block has been closed.
Main results: two sources without quotes inside their literals are equal exactly when their
items are, and branches with equal sources that both run leave the same operands.
-/
namespace BranchCases

/-! ## What can follow -/

/-- What follows a sequence: nothing, or the mark of a block. -/
def EndsSequence (rest : List Token) : Prop :=
  ∀ t ∈ rest.head?, t = .opening ∨ t = .closing

/-- What follows a core does not go on with its clauses. -/
def EndsCore (rest : List Token) : Prop :=
  ∀ t ∈ rest.head?, t ≠ .elbr ∧ t ≠ .el

theorem endsSequence_nil : EndsSequence [] := by
  simp [EndsSequence]

theorem endsSequence_opening (rest : List Token) : EndsSequence (.opening :: rest) := by
  simp [EndsSequence]

theorem endsSequence_closing (rest : List Token) : EndsSequence (.closing :: rest) := by
  simp [EndsSequence]

theorem EndsSequence.endsCore {rest : List Token} (h : EndsSequence rest) : EndsCore rest := by
  intro t ht
  rcases h t ht with rfl | rfl
  · exact ⟨by simp, by simp⟩
  · exact ⟨by simp, by simp⟩

theorem Item.tokens_eq_cons (item : Item) :
    ∃ t rest, item.tokens = t :: rest ∧ (t = .br ∨ ∃ v, t = .literal v) := by
  cases item with
  | push v => exact ⟨.literal v, [], rfl, Or.inr ⟨v, rfl⟩⟩
  | core cond body arms el => exact ⟨.br, _, rfl, Or.inl rfl⟩

theorem Item.not_endsSequence (item : Item) (rest : List Token) :
    ¬ EndsSequence (item.tokens ++ rest) := by
  obtain ⟨t, tail, htokens, ht⟩ := item.tokens_eq_cons
  rw [htokens]
  intro h
  rcases ht with rfl | ⟨v, rfl⟩
  · simpa using h .br rfl
  · simpa using h (.literal v) rfl

/-- Items that follow a core do not go on with its clauses. -/
theorem endsCore_tokensAll (items : List Item) {rest : List Token} (h : EndsSequence rest) :
    EndsCore (tokensAll items ++ rest) := by
  cases items with
  | nil => exact h.endsCore
  | cons item items =>
      obtain ⟨t, tail, htokens, ht⟩ := item.tokens_eq_cons
      rw [tokensAll, htokens]
      intro u hu
      cases hu
      rcases ht with rfl | ⟨v, rfl⟩
      · exact ⟨by simp, by simp⟩
      · exact ⟨by simp, by simp⟩

/-- What follows the arms of a core: an alternative or the end of the core, no further arm. -/
theorem ne_elbr_of_mem_head? (el : Option (List Item)) {rest : List Token} (h : EndsCore rest) :
    ∀ t ∈ (tokensAlternative el ++ rest).head?, t ≠ .elbr := by
  intro t ht
  cases el with
  | none => exact (h t ht).1
  | some body =>
      cases ht
      simp

/-! ## Reading items -/

/-- Words that begin with those of the items determine them, and what follows. -/
def Cancels (items : List Item) : Prop :=
  ∀ (items' : List Item) {rest rest' : List Token}, EndsSequence rest → EndsSequence rest' →
    tokensAll items ++ rest = tokensAll items' ++ rest' → items = items' ∧ rest = rest'

theorem Cancels.block {cond body cond' body' : List Item} {rest rest' : List Token}
    (hcond : Cancels cond) (hbody : Cancels body)
    (h : tokensAll cond ++ .opening :: (tokensAll body ++ .closing :: rest) =
      tokensAll cond' ++ .opening :: (tokensAll body' ++ .closing :: rest')) :
    cond = cond' ∧ body = body' ∧ rest = rest' := by
  obtain ⟨rfl, hblock⟩ := hcond cond' (endsSequence_opening _) (endsSequence_opening _) h
  obtain ⟨rfl, hend⟩ :=
    hbody body' (endsSequence_closing _) (endsSequence_closing _) (List.cons.inj hblock).2
  exact ⟨rfl, rfl, (List.cons.inj hend).2⟩

-- Each of the four says: words that begin with those of a part determine the part and what
-- follows it, provided that what follows cannot belong to the part.
mutual

theorem Item.tokens_cancel : (item item' : Item) → {rest rest' : List Token} → EndsCore rest →
    EndsCore rest' → item.tokens ++ rest = item'.tokens ++ rest' → item = item' ∧ rest = rest'
  | .push v, .push v', rest, rest', _, _, h => by
      obtain ⟨hv, hrest⟩ := List.cons.inj h
      cases hv
      exact ⟨rfl, hrest⟩
  | .push v, .core .., rest, rest', _, _, h => by
      cases (List.cons.inj h).1
  | .core .., .push v', rest, rest', _, _, h => by
      cases (List.cons.inj h).1
  | .core cond body arms el, .core cond' body' arms' el', rest, rest', hr, hr', h => by
      simp only [Item.tokens, List.cons_append, List.append_assoc, List.cons.injEq, true_and] at h
      obtain ⟨rfl, rfl, harms⟩ := Cancels.block (tokensAll_cancel cond) (tokensAll_cancel body) h
      obtain ⟨rfl, hel⟩ :=
        tokensArms_cancel arms arms' (ne_elbr_of_mem_head? el hr) (ne_elbr_of_mem_head? el' hr')
          harms
      obtain ⟨rfl, hrest⟩ :=
        tokensAlternative_cancel el el' (fun t ht => (hr t ht).2) (fun t ht => (hr' t ht).2) hel
      exact ⟨rfl, hrest⟩

theorem tokensAll_cancel : (items items' : List Item) → {rest rest' : List Token} →
    EndsSequence rest → EndsSequence rest' → tokensAll items ++ rest = tokensAll items' ++ rest' →
    items = items' ∧ rest = rest'
  | [], [], rest, rest', _, _, h => ⟨rfl, h⟩
  | [], item' :: items', rest, rest', hr, _, h => by
      rw [tokensAll, tokensAll, List.nil_append, List.append_assoc] at h
      rw [h] at hr
      exact absurd hr (item'.not_endsSequence _)
  | item :: items, [], rest, rest', _, hr', h => by
      rw [tokensAll, tokensAll, List.nil_append, List.append_assoc] at h
      rw [← h] at hr'
      exact absurd hr' (item.not_endsSequence _)
  | item :: items, item' :: items', rest, rest', hr, hr', h => by
      rw [tokensAll, tokensAll, List.append_assoc, List.append_assoc] at h
      obtain ⟨rfl, htail⟩ := item.tokens_cancel item' (endsCore_tokensAll items hr)
        (endsCore_tokensAll items' hr') h
      obtain ⟨rfl, hrest⟩ := tokensAll_cancel items items' hr hr' htail
      exact ⟨rfl, hrest⟩

theorem tokensArms_cancel : (arms arms' : List Arm) → {rest rest' : List Token} →
    (∀ t ∈ rest.head?, t ≠ .elbr) → (∀ t ∈ rest'.head?, t ≠ .elbr) →
    tokensArms arms ++ rest = tokensArms arms' ++ rest' → arms = arms' ∧ rest = rest'
  | [], [], rest, rest', _, _, h => ⟨rfl, h⟩
  | [], ⟨cond', body'⟩ :: arms', rest, rest', hr, _, h => by
      have hhead : rest.head? = some .elbr := congrArg List.head? h
      exact absurd rfl (hr .elbr hhead)
  | ⟨cond, body⟩ :: arms, [], rest, rest', _, hr', h => by
      have hhead : rest'.head? = some .elbr := (congrArg List.head? h).symm
      exact absurd rfl (hr' .elbr hhead)
  | ⟨cond, body⟩ :: arms, ⟨cond', body'⟩ :: arms', rest, rest', hr, hr', h => by
      simp only [tokensArms, List.cons_append, List.append_assoc, List.cons.injEq, true_and] at h
      obtain ⟨rfl, rfl, htail⟩ := Cancels.block (tokensAll_cancel cond) (tokensAll_cancel body) h
      obtain ⟨rfl, hrest⟩ := tokensArms_cancel arms arms' hr hr' htail
      exact ⟨rfl, hrest⟩

theorem tokensAlternative_cancel : (el el' : Option (List Item)) → {rest rest' : List Token} →
    (∀ t ∈ rest.head?, t ≠ .el) → (∀ t ∈ rest'.head?, t ≠ .el) →
    tokensAlternative el ++ rest = tokensAlternative el' ++ rest' → el = el' ∧ rest = rest'
  | none, none, rest, rest', _, _, h => ⟨rfl, h⟩
  | none, some body', rest, rest', hr, _, h => by
      have hhead : rest.head? = some .el := congrArg List.head? h
      exact absurd rfl (hr .el hhead)
  | some body, none, rest, rest', _, hr', h => by
      have hhead : rest'.head? = some .el := (congrArg List.head? h).symm
      exact absurd rfl (hr' .el hhead)
  | some body, some body', rest, rest', _, _, h => by
      simp only [tokensAlternative, List.cons_append, List.append_assoc, List.nil_append,
        List.cons.injEq, true_and] at h
      obtain ⟨rfl, hend⟩ :=
        tokensAll_cancel body body' (endsSequence_closing _) (endsSequence_closing _) h
      exact ⟨rfl, (List.cons.inj hend).2⟩

end

/-! ## Reading sources -/

theorem Branch.tokens_ne_nil (b : Branch) : tokensAll b.items ≠ [] := by
  obtain ⟨pre, cond, body, elbr, el, post⟩ := b
  simp [Branch.items, tokensAll_append, tokensAll, Item.tokens]

theorem Branch.toList_source (b : Branch) :
    b.source.toList ++ [' '] = spelled (tokensAll b.items) := by
  rw [Branch.source, b.write_eq]
  exact toList_addTokens_empty b.tokens_ne_nil

theorem Branch.source_eq_of_items_eq {a b : Branch} (h : a.items = b.items) :
    a.source = b.source := by
  rw [Branch.source, Branch.source, a.write_eq, b.write_eq, h]

theorem Branch.items_eq_of_source_eq {a b : Branch} (ha : a.QuoteFree) (hb : b.QuoteFree)
    (h : a.source = b.source) : a.items = b.items := by
  have hspelled : spelled (tokensAll a.items) = spelled (tokensAll b.items) := by
    rw [← a.toList_source, ← b.toList_source, h]
  have htokens : tokensAll a.items = tokensAll b.items :=
    spelled_injective ha.tokens hb.tokens hspelled
  have hrest : tokensAll a.items ++ [] = tokensAll b.items ++ [] := congrArg (· ++ []) htokens
  exact (tokensAll_cancel a.items b.items endsSequence_nil endsSequence_nil hrest).1

/-- A source tells everything about a branch but where `pre` begins and `post` ends. -/
theorem Branch.source_eq_iff_items_eq (a b : Branch) (ha : a.QuoteFree) (hb : b.QuoteFree) :
    a.source = b.source ↔ a.items = b.items :=
  ⟨Branch.items_eq_of_source_eq ha hb, Branch.source_eq_of_items_eq⟩

/-- A literal before a nested branch, as an operand of the branch around it. -/
def siblingBranch : Branch where
  cond := [.push (.int 1), .branch { cond := pushes [.bool true], el := some [] }]
  body := pushes [.string "br \x7b"]

def nestedBranch : Branch where
  cond := [.branch { pre := pushes [.int 1], cond := pushes [.bool true], el := some [] }]
  body := pushes [.string "br \x7b"]

theorem nestedBranch_source_eq_iff :
    siblingBranch ≠ nestedBranch ∧ siblingBranch.QuoteFree ∧ nestedBranch.QuoteFree ∧
      (siblingBranch.source = nestedBranch.source ↔ siblingBranch.items = nestedBranch.items) :=
  ⟨fun h => absurd (congrArg (fun b => b.cond.length) h) (by decide), by decide, by decide,
    siblingBranch.source_eq_iff_items_eq nestedBranch (by decide) (by decide)⟩

theorem Branch.program_eq (b : Branch) :
    Fragment.program b = "main \x7b " ++ b.source ++ " \x7d" := rfl

theorem testLine_congr (format : Format) {f g : Fragment} (h : f.program = g.program)
    (expected : List Value) : testLine format f expected = testLine format g expected := by
  unfold testLine
  rw [h]

/-- Branches that are written in the same way and both run leave the same operands, so that
there is one test line for their source. -/
theorem Branch.testCase_eq_of_source_eq (a b : Branch) (left left' : Stack) (ha : a.QuoteFree)
    (hb : b.QuoteFree) (hsource : a.source = b.source) (hflow : a.flow = .ok left)
    (hflow' : b.flow = .ok left') :
    left = left' ∧ ∀ format : Format, a.testCase format = b.testCase format := by
  have hitems : a.items = b.items := Branch.items_eq_of_source_eq ha hb hsource
  have hexec := a.exec_items [] (Run.result_eq_ok.mp hflow)
  have hexec' := b.exec_items [] (Run.result_eq_ok.mp hflow')
  rw [hitems, hexec'] at hexec
  have hleft : left = left' := (Option.some.inj hexec).symm
  refine ⟨hleft, ?_⟩
  intro format
  have hprogram : Fragment.program a = Fragment.program b := by
    rw [a.program_eq, b.program_eq, hsource]
  rw [Branch.testCase, Branch.testCase, hflow, hflow', hleft, Except.map, Except.map,
    testLine_congr format hprogram left']

theorem nestedBranch_testCase_eq :
    siblingBranch.source = nestedBranch.source ∧
      siblingBranch.flow = .ok [.string "br \x7b"] ∧ nestedBranch.flow = .ok [.string "br \x7b"] ∧
      siblingBranch.testCase .test = nestedBranch.testCase .test :=
  have hsource : siblingBranch.source = nestedBranch.source := by decide
  ⟨hsource, rfl, rfl, (siblingBranch.testCase_eq_of_source_eq nestedBranch _ _ (by decide)
    (by decide) hsource rfl rfl).2 .test⟩

end BranchCases
