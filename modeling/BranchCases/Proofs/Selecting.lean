import BranchCases.Selection
import BranchCases.Proofs.Nesting
import Mathlib.Data.List.Forall2

/-
What a selection keeps, counts, asks and records. Main result: the acceptance test is called
once for each valid candidate, in their order, and the selection keeps the candidates that it
lets through (`Pools.selectM_observed`).
-/
namespace BranchCases

variable (accept : Branch → Bool)

/-- What is looked for: a valid branch that the test lets through. -/
def Branch.isWanted (b : Branch) : Bool :=
  b.isValid && accept b

/-- The record of a candidate, if it cannot run. -/
def Branch.rejection? (b : Branch) : Option Event :=
  b.check.2

theorem Branch.check_eq (b : Branch) : b.check = (b.isValid, b.rejection?) := by
  rw [Branch.rejection?, Branch.isValid, Branch.check]
  cases b.flow with
  | ok left => rfl
  | error error => rfl

/-- What has been seen and kept after more candidates. -/
def Selection.after (s : Selection) (candidates : List Branch) : Selection where
  raw := s.raw + candidates.length
  valid := s.valid + (candidates.filter Branch.isValid).length
  kept := s.kept ++ (candidates.filter (Branch.isWanted accept)).toArray
  log := s.log ++ (candidates.filterMap Branch.rejection?).toArray

theorem Selection.after_nil (s : Selection) : s.after accept [] = s := by
  simp [Selection.after]

theorem Selection.after_append (s : Selection) (first second : List Branch) :
    (s.after accept first).after accept second = s.after accept (first ++ second) := by
  simp only [Selection.after, List.length_append, List.filter_append, List.filterMap_append,
    Nat.add_assoc, Array.append_assoc, List.append_toArray]

section

variable {m : Type → Type} [Monad m] (ask : Branch → m Unit)

/-- The acceptance test with an effect at each call. -/
def observed (b : Branch) : m Bool := do
  ask b
  pure (accept b)

variable [LawfulMonad m]

theorem Selection.examine_of_isValid {candidate : Branch} (h : candidate.isValid) (s : Selection) :
    s.examine (observed accept ask) candidate =
      (do ask candidate; pure (s.after accept [candidate])) := by
  have hwanted : candidate.isWanted accept = accept candidate := by
    rw [Branch.isWanted, h, Bool.true_and]
  rw [Selection.examine, Branch.check_eq, h]
  cases haccept : accept candidate with
  | true =>
      simp [observed, Selection.after, List.filterMap_eq_flatMap_toList, h, haccept, hwanted]
  | false =>
      simp [observed, Selection.after, List.filterMap_eq_flatMap_toList, h, haccept, hwanted]

omit [LawfulMonad m] in
theorem Selection.examine_of_not_isValid {candidate : Branch} (h : ¬ candidate.isValid)
    (s : Selection) :
    s.examine (observed accept ask) candidate = pure (s.after accept [candidate]) := by
  have hinvalid : candidate.isValid = false := Bool.eq_false_iff.mpr h
  have hwanted : candidate.isWanted accept = false := by
    rw [Branch.isWanted, hinvalid, Bool.false_and]
  rw [Selection.examine, Branch.check_eq, hinvalid]
  simp [Selection.after, List.filterMap_eq_flatMap_toList, hinvalid, hwanted]

theorem Selection.foldlM_observed (candidates : List Branch) (s : Selection) :
    candidates.foldlM (Selection.examine (observed accept ask)) s =
      (do (candidates.filter Branch.isValid).forM ask; pure (s.after accept candidates)) := by
  induction candidates generalizing s with
  | nil =>
      rw [Selection.after_nil]
      simp
  | cons candidate candidates ih =>
      rw [List.foldlM_cons]
      by_cases hvalid : candidate.isValid
      · rw [Selection.examine_of_isValid accept ask hvalid, List.filter_cons_of_pos hvalid]
        simp [ih, Selection.after_append]
      · rw [Selection.examine_of_not_isValid accept ask hvalid, List.filter_cons_of_neg hvalid,
          pure_bind, ih, Selection.after_append, List.singleton_append]

/-- The selection from the pools: all candidates seen, and the closing record. -/
def Pools.selected (pools : Pools) : Selection :=
  let s := Selection.after accept {} pools.candidates
  { s with log := s.log.push s.summary }

theorem Pools.selectM_observed (pools : Pools) :
    pools.selectM (observed accept ask) =
      (do (pools.candidates.filter Branch.isValid).forM ask; pure (pools.selected accept)) := by
  rw [Pools.selectM, Selection.foldlM_observed]
  simp [Pools.selected]

end

theorem Pools.select_eq_selected (pools : Pools) : pools.select accept = pools.selected accept := by
  have hpure : (fun candidate => pure (accept candidate) : Branch → Id Bool) =
      observed accept fun _ => pure () := rfl
  rw [Pools.select, hpure, Pools.selectM_observed]
  rfl

theorem Pools.kept_eq_filter (pools : Pools) :
    pools.kept accept = pools.candidates.filter (Branch.isWanted accept) := by
  rw [Pools.kept, Pools.select_eq_selected]
  simp [Pools.selected, Selection.after]

theorem Pools.mem_kept {pools : Pools} {b : Branch} :
    b ∈ pools.kept accept ↔ b ∈ pools.candidates ∧ b.isValid ∧ accept b := by
  rw [Pools.kept_eq_filter, List.mem_filter, Branch.isWanted, Bool.and_eq_true]

theorem Pools.isValid_of_mem_kept {pools : Pools} {b : Branch} (h : b ∈ pools.kept accept) :
    b.isValid :=
  ((Pools.mem_kept accept).mp h).2.1

/-! ## What is asked -/

/-- Each call of the acceptance test is noted. -/
def note (b : Branch) : StateM (List Branch) Unit :=
  modify (· ++ [b])

theorem run_forM_note (branches calls : List Branch) :
    (branches.forM note).run calls = pure ((), calls ++ branches) := by
  induction branches generalizing calls with
  | nil =>
      rw [List.append_nil]
      rfl
  | cons b branches ih =>
      rw [← List.singleton_append, ← List.append_assoc]
      exact ih (calls ++ [b])

theorem Pools.run_selectM_note (pools : Pools) :
    (pools.selectM (observed accept note)).run [] =
      pure (pools.select accept, pools.candidates.filter Branch.isValid) := by
  rw [Pools.selectM_observed, StateT.run_bind, run_forM_note, pure_bind, Pools.select_eq_selected]
  rfl

/-! ## What is recorded -/

/-- The record says of a candidate with which error its run ends. -/
def Event.Rejects (e : Event) (candidate : Branch) : Prop :=
  ∃ error, candidate.flow = .error error ∧ e = {
    level := .trace
    target := "sbl_brgen::interpreter"
    message := "rejecting candidate"
    fields := [⟨"err", error.message, false⟩, ⟨"code", error.code, true⟩] }

/-- The record that ends a selection, with its three counts. -/
def countsEvent (raw valid kept : Nat) : Event where
  level := .debug
  target := "sbl_brgen::enumerate"
  message := "enumerated br candidates"
  fields := [⟨"raw", raw.repr, false⟩, ⟨"valid", valid.repr, false⟩, ⟨"kept", kept.repr, false⟩]

theorem rejects_rejections (candidates : List Branch) :
    List.Forall₂ Event.Rejects (candidates.filterMap Branch.rejection?)
      (candidates.filter fun b => !b.isValid) := by
  induction candidates with
  | nil => exact .nil
  | cons b candidates ih =>
      cases hflow : b.flow with
      | ok left =>
          have hvalid : b.isValid := Branch.isValid_iff.mpr ⟨left, hflow⟩
          have hnone : b.rejection? = none := by rw [Branch.rejection?, Branch.check, hflow]
          rw [List.filterMap_cons_none hnone, List.filter_cons_of_neg (by simp [hvalid])]
          exact ih
      | error error =>
          have hinvalid : b.isValid = false := by rw [Branch.isValid, hflow]; rfl
          have hsome : b.rejection? = some error.rejection := by
            rw [Branch.rejection?, Branch.check, hflow]
          rw [List.filterMap_cons_some hsome, List.filter_cons_of_pos (by simp [hinvalid])]
          exact .cons ⟨error, hflow, rfl⟩ ih

theorem admitted_map_event (threshold : Level) (within : Option Span) (events : List Event) :
    admitted threshold (events.map (Record.event within)) =
      (events.filter fun e => threshold.admits e.level).map (Record.event within) :=
  List.filter_map

theorem admitted_trace (records : List Record) : admitted .trace records = records := by
  refine List.filter_eq_self.mpr ?_
  intro r _
  cases r.level <;> rfl

theorem filter_of_rejects (threshold : Level) {events : List Event} {candidates : List Branch}
    (h : List.Forall₂ Event.Rejects events candidates) :
    events.filter (fun e => threshold.admits e.level) =
      if threshold.admits .trace then events else [] := by
  induction h with
  | nil => split <;> rfl
  | cons hfirst hrest ih =>
      obtain ⟨error, -, rfl⟩ := hfirst
      rw [List.filter_cons, ih]
      split <;> rfl

theorem Pools.log_select (pools : Pools) :
    (pools.select accept).log.toList =
      pools.candidates.filterMap Branch.rejection? ++
        [countsEvent pools.candidates.length (pools.candidates.filter Branch.isValid).length
          (pools.select accept).kept.size] := by
  rw [Pools.select_eq_selected]
  simp [Pools.selected, Selection.after, Selection.summary, countsEvent]

theorem Pools.length_valid (pools : Pools) :
    (pools.candidates.filter Branch.isValid).length =
      pools.candidates.length - (pools.candidates.filterMap Branch.rejection?).length := by
  have hrejected := (rejects_rejections pools.candidates).length_eq
  have hsplit := pools.candidates.length_eq_length_filter_add Branch.isValid
  omega

theorem Pools.size_kept_le (pools : Pools) :
    (pools.select accept).kept.size ≤ (pools.candidates.filter Branch.isValid).length := by
  have hkept : (pools.select accept).kept.toList =
      (pools.candidates.filter Branch.isValid).filter accept := by
    rw [List.filter_filter]
    exact (Pools.kept_eq_filter accept pools).trans (List.filter_congr fun b _ => Bool.and_comm _ _)
  rw [← Array.length_toList, hkept]
  exact List.length_filter_le _ _

/-- A selection of the candidates of the pools, in their order. It keeps those that are valid
and that the test lets through; it calls the test once for each valid one and for no other; it
records each invalid one with its error, and then the three counts. -/
theorem Pools.selectM_keeps_asks_records (pools : Pools) :
    ∃ (selection : Selection) (rejected : List Event) (raw valid : Nat),
      (pools.selectM (observed accept note)).run [] =
        pure (selection, pools.candidates.filter Branch.isValid) ∧
      pools.select accept = selection ∧
      selection.kept.toList = pools.candidates.filter (fun b => b.isValid && accept b) ∧
      List.Forall₂ Event.Rejects rejected (pools.candidates.filter fun b => !b.isValid) ∧
      raw = pools.candidates.length ∧ valid = raw - rejected.length ∧
      selection.kept.size ≤ valid ∧ valid ≤ raw ∧
      ∀ within : Option Span,
        let records := selection.log.toList.map (Record.event within)
        admitted .trace records =
          (rejected ++ [countsEvent raw valid selection.kept.size]).map (Record.event within) ∧
        (∀ threshold : Level, admitted threshold records =
          (admitted .trace records).filter fun r => r.level.rank ≤ threshold.rank) ∧
        admitted .debug records =
          [.event within (countsEvent raw valid selection.kept.size)] ∧
        admitted .info records = [] ∧ admitted .warn records = [] ∧
        admitted .error records = [] := by
  refine ⟨pools.select accept, pools.candidates.filterMap Branch.rejection?, _, _,
    pools.run_selectM_note accept, rfl, pools.kept_eq_filter accept,
    rejects_rejections pools.candidates, rfl, pools.length_valid,
    pools.size_kept_le accept, List.length_filter_le _ _, ?_⟩
  intro within
  dsimp only
  rw [pools.log_select]
  refine ⟨admitted_trace _, ?_, ?_, ?_, ?_, ?_⟩
  · intro threshold
    rw [admitted_trace]
    rfl
  all_goals
    rw [admitted_map_event, List.filter_append, filter_of_rejects _ (rejects_rejections _)]
    rfl

end BranchCases
