import BranchCases.Proofs.UniqueReading
import Mathlib.Data.List.Infix

/-
Writing as joining. All that a writer reads off a text is whether it is empty, so a fragment comes
to a text as one long word would: its own source, behind a space if there is something before it.
Main result: the text after any number of fragments is their sources joined by single spaces, and
the source of each of them is its parts, joined in the same way.
-/
namespace BranchCases

/-- A text with no space at either end. -/
structure Trimmed (text : String) : Prop where
  first : text.toList.head? ≠ some ' '
  last : text.toList.getLast? ≠ some ' '

/-- A text that single spaces part from what it is joined with: there is something in it, and no
space at either end. -/
structure Solid (text : String) : Prop extends Trimmed text where
  ne_empty : text ≠ ""

theorem trimmed_empty : Trimmed "" :=
  ⟨by decide, by decide⟩

/-! ## Words added to a text -/

/-- A solid word leaves the beginning of a text as it was and gives it a new end. -/
theorem solid_addWord {word text : String} (hword : Solid word) (htext : Trimmed text) :
    Solid (addWord word text) := by
  by_cases h : text = ""
  · rw [h]
    exact hword
  · have hfirst : text.toList ≠ [] := mt String.toList_eq_nil_iff.mp h
    have hlast : word.toList ≠ [] := mt String.toList_eq_nil_iff.mp hword.ne_empty
    have hlist : (addWord word text).toList = text.toList ++ (' ' :: word.toList) := by
      rw [addWord_of_ne_empty word h, String.toList_append, String.toList_append,
        List.append_assoc]
      rfl
    refine ⟨⟨?_, ?_⟩, ?_⟩
    · rw [hlist, List.head?_append_of_ne_nil _ hfirst]
      exact htext.first
    · rw [hlist, List.getLast?_append_of_ne_nil _ (List.cons_ne_nil _ _), ← List.singleton_append,
        List.getLast?_append_of_ne_nil _ hlast]
      exact hword.last
    · intro hempty
      rw [hempty] at hlist
      exact List.append_ne_nil_of_left_ne_nil hfirst _ hlist.symm

def addWords (words : List String) (text : String) : String :=
  words.foldl (fun text word => addWord word text) text

@[simp] theorem addWords_nil (text : String) : addWords [] text = text := rfl

@[simp] theorem addWords_cons (word : String) (rest : List String) (text : String) :
    addWords (word :: rest) text = addWords rest (addWord word text) := rfl

@[simp] theorem addWords_append (first rest : List String) (text : String) :
    addWords (first ++ rest) text = addWords rest (addWords first text) :=
  List.foldl_append

theorem solid_addWords {words : List String} (hwords : ∀ word ∈ words, Solid word) {text : String}
    (htext : Solid text) : Solid (addWords words text) := by
  induction words generalizing text with
  | nil => exact htext
  | cons word rest ih =>
      rw [List.forall_mem_cons] at hwords
      exact ih hwords.2 (solid_addWord hwords.1 htext.toTrimmed)

theorem addWords_of_ne_empty (words : List String) {text : String} (h : text ≠ "") :
    addWords words text = " ".intercalate (text :: words) := by
  -- A word that has come to the text is from then on a piece of the first one that is joined.
  induction words generalizing text with
  | nil => exact String.intercalate_singleton.symm
  | cons word rest ih =>
      have hadd := addWord_of_ne_empty word h
      have hne : addWord word text ≠ "" := by simp [hadd]
      rw [addWords_cons, ih hne, hadd, String.intercalate_cons_append,
        String.intercalate_cons_cons]

theorem addWords_empty {words : List String} (hwords : ∀ word ∈ words, Solid word) :
    addWords words "" = " ".intercalate words := by
  cases words with
  | nil => exact String.intercalate_nil.symm
  | cons word rest => exact addWords_of_ne_empty rest (hwords word List.mem_cons_self).ne_empty

theorem solid_intercalate {words : List String} (hwords : ∀ word ∈ words, Solid word)
    (h : words ≠ []) : Solid (" ".intercalate words) := by
  cases words with
  | nil => exact absurd rfl h
  | cons word rest =>
      rw [List.forall_mem_cons] at hwords
      rw [← addWords_of_ne_empty rest hwords.1.ne_empty]
      exact solid_addWords hwords.2 hwords.1

theorem trimmed_intercalate {words : List String} (hwords : ∀ word ∈ words, Solid word) :
    Trimmed (" ".intercalate words) := by
  by_cases h : words = []
  · rw [h, String.intercalate_nil]
    exact trimmed_empty
  · exact (solid_intercalate hwords h).toTrimmed

/-- Words come to any text as one word does, the words joined. -/
theorem addWords_eq_addWord {words : List String} (hwords : ∀ word ∈ words, Solid word)
    (h : words ≠ []) (text : String) :
    addWords words text = addWord (" ".intercalate words) text := by
  by_cases htext : text = ""
  · rw [htext, addWords_empty hwords]
    rfl
  · rw [addWords_of_ne_empty words htext, String.intercalate_cons_of_ne_nil h,
      addWord_of_ne_empty _ htext]

/-! ## Writers -/

/-- The writer adds the parts to any text, one after another, and each of them is solid. -/
structure Joins (write : String → String) (parts : List String) : Prop where
  adds : ∀ text, write text = addWords parts text
  solid : ∀ part ∈ parts, Solid part

section

variable {write next : String → String} {parts more : List String}

theorem Joins.nil : Joins (fun text => text) [] :=
  ⟨fun _ => rfl, List.forall_mem_nil _⟩

theorem Joins.append (h : Joins write parts) (hnext : Joins next more) :
    Joins (fun text => next (write text)) (parts ++ more) := by
  constructor
  · intro text
    rw [hnext.adds, h.adds, addWords_append]
  · exact List.forall_mem_append.mpr ⟨h.solid, hnext.solid⟩

theorem Joins.write_empty (h : Joins write parts) : write "" = " ".intercalate parts := by
  rw [h.adds, addWords_empty h.solid]

/-- Where there is something to add, it comes to any text as one word. -/
theorem Joins.whole (h : Joins write parts) (hne : parts ≠ []) : Joins write [write ""] := by
  constructor
  · intro text
    rw [h.write_empty, h.adds, addWords_eq_addWord h.solid hne]
    rfl
  · rw [List.forall_mem_singleton, h.write_empty]
    exact solid_intercalate h.solid hne

end

/-! ## Words of a fragment -/

theorem Token.solid_text (t : Token) : Solid t.text := by
  refine ⟨?_, t.text_ne_empty⟩
  rcases t.plain_or_string with hp | ⟨s, rfl⟩
  · have hspace := (Token.not_mem_text hp).1
    exact ⟨fun h => hspace (List.mem_of_head? h), fun h => hspace (List.mem_of_getLast? h)⟩
  · have hquotes := Token.toList_text_string s
    constructor
    · rw [hquotes]
      simp
    · rw [hquotes, ← List.cons_append, List.getLast?_concat]
      decide

theorem Token.joins (t : Token) : Joins (addWord t.text) [t.text] :=
  ⟨fun _ => rfl, List.forall_mem_singleton.mpr t.solid_text⟩

def Fragment.tokens : Fragment → List Token
  | .value v => [.literal v]
  | .statement s => tokensAll s.items
  | .branch b => tokensAll b.items
  | .elbr clause => tokensArms (itemsClauses [clause])
  | .el body => tokensAlternative (itemsAlternative (some body))

theorem Fragment.tokens_ne_nil (f : Fragment) : f.tokens ≠ [] := by
  cases f with
  | value v => exact List.cons_ne_nil _ _
  | statement s =>
      cases s with
      | push v => exact List.cons_ne_nil _ _
      | branch b => exact b.tokens_ne_nil
  | branch b => exact b.tokens_ne_nil
  | elbr clause =>
      obtain ⟨cond, body⟩ := clause
      exact List.cons_ne_nil _ _
  | el body => exact List.cons_ne_nil _ _

theorem Fragment.write_eq_addTokens (f : Fragment) (text : String) :
    f.write text = addTokens f.tokens text := by
  cases f with
  | value v => rfl
  | statement s => exact s.write_eq text
  | branch b => exact b.write_eq text
  | elbr clause => exact writeClauses_eq [clause] text
  | el body => exact writeAlternative_eq (some body) text

theorem Fragment.joins_words (f : Fragment) : Joins f.write (f.tokens.map Token.text) := by
  constructor
  · intro text
    rw [f.write_eq_addTokens, addTokens, addWords, List.foldl_map]
  · exact List.forall_mem_map.mpr fun t _ => t.solid_text

/-- A fragment is written to any text as if its source were one word. -/
theorem Fragment.joins_source (f : Fragment) : Joins f.write [f.source] :=
  -- Through the words: its parts are sources themselves and would need this lemma.
  f.joins_words.whole (mt List.map_eq_nil_iff.mp f.tokens_ne_nil)

theorem Fragment.solid_source (f : Fragment) : Solid f.source :=
  List.forall_mem_singleton.mp f.joins_source.solid

/-! ## Parts of a fragment -/

def sources (stmts : List Statement) : List String :=
  stmts.map fun s => Fragment.source (.statement s)

/-- A block with no statements in it still has its two braces. -/
def blockParts (stmts : List Statement) : List String :=
  "\x7b" :: (sources stmts ++ ["\x7d"])

/-- What the source of a branch joins. A slot with nothing in it gives no part. -/
def Branch.parts : Branch → List String
  | ⟨pre, cond, body, elbr, el, post⟩ =>
    sources pre ++ "br" :: (sources cond ++ (blockParts body ++
      (elbr.map Elbr.source ++ (el.toList.map (fun body => Fragment.source (.el body)) ++
        sources post))))

def Fragment.parts : Fragment → List String
  | .value v => [v.source]
  | .statement (.push v) => [v.source]
  | .statement (.branch b) => b.parts
  | .branch b => b.parts
  | .elbr ⟨cond, body⟩ => "elbr" :: (sources cond ++ blockParts body)
  | .el body => "el" :: blockParts body

theorem joins_writeAll (stmts : List Statement) : Joins (writeAll stmts) (sources stmts) := by
  induction stmts with
  | nil => exact .nil
  | cons s rest ih => exact (Fragment.joins_source (.statement s)).append ih

theorem joins_writeClauses (elbr : List Elbr) :
    Joins (writeClauses elbr) (elbr.map Elbr.source) := by
  induction elbr with
  | nil => exact .nil
  | cons clause rest ih => exact (Fragment.joins_source (.elbr clause)).append ih

theorem joins_writeAlternative (el : Option (List Statement)) :
    Joins (writeAlternative el) (el.toList.map fun body => Fragment.source (.el body)) := by
  cases el with
  | none => exact .nil
  | some body => exact Fragment.joins_source (.el body)

theorem joins_block (stmts : List Statement) :
    Joins (fun text => text |> addWord "\x7b" |> writeAll stmts |> addWord "\x7d")
      (blockParts stmts) :=
  Token.opening.joins.append ((joins_writeAll stmts).append Token.closing.joins)

theorem Branch.joins_parts (b : Branch) : Joins b.write b.parts := by
  obtain ⟨pre, cond, body, elbr, el, post⟩ := b
  exact (joins_writeAll pre).append <| Token.br.joins.append <| (joins_writeAll cond).append <|
    (joins_block body).append <| (joins_writeClauses elbr).append <|
    (joins_writeAlternative el).append <| joins_writeAll post

theorem Fragment.joins_parts (f : Fragment) : Joins f.write f.parts := by
  cases f with
  | value v => exact (Token.literal v).joins
  | statement s =>
      cases s with
      | push v => exact (Token.literal v).joins
      | branch b => exact b.joins_parts
  | branch b => exact b.joins_parts
  | elbr clause =>
      obtain ⟨cond, body⟩ := clause
      exact Token.elbr.joins.append ((joins_writeAll cond).append (joins_block body))
  | el body => exact Token.el.joins.append (joins_block body)

/-! ## Fragments one after another -/

/-- The texts of a writer that starts with nothing: the first one, and one after each fragment. -/
def textsWritten (fragments : List Fragment) : List String :=
  fragments.scanl (fun text f => f.write text) ""

theorem scanl_eq_map_inits {α β : Type} (step : β → α → β) (start : β) (xs : List α) :
    xs.scanl step start = xs.inits.map (List.foldl step start) := by
  induction xs generalizing start with
  | nil => rfl
  | cons x rest ih =>
      rw [List.scanl_cons, ih, List.inits_cons, List.map_cons, List.map_map]
      rfl

theorem joins_fragments (fragments : List Fragment) :
    Joins (fun text => fragments.foldl (fun text f => f.write text) text)
      (fragments.map Fragment.source) := by
  induction fragments with
  | nil => exact .nil
  | cons f rest ih => exact f.joins_source.append ih

theorem textsWritten_eq_map_inits (fragments : List Fragment) :
    textsWritten fragments =
      fragments.inits.map (fun sofar => " ".intercalate (sofar.map Fragment.source)) := by
  rw [textsWritten, scanl_eq_map_inits]
  exact List.map_congr_left fun sofar _ => (joins_fragments sofar).write_empty

/-- Writing is joining. After each fragment the text is the sources of those written so far, joined
by single spaces, and no space is at its ends. The source of a fragment is the join of its parts in
the same way, an empty slot being no part at all, and it reads the same behind any other text. -/
theorem textsWritten_join (fragments : List Fragment) :
    textsWritten fragments =
      fragments.inits.map (fun sofar => " ".intercalate (sofar.map Fragment.source)) ∧
    (∀ text ∈ textsWritten fragments, Trimmed text) ∧
    ∀ f : Fragment,
      Solid f.source ∧ f.source = " ".intercalate f.parts ∧ (∀ part ∈ f.parts, Solid part) ∧
      ∀ text, f.write text = if text = "" then f.source else text ++ " " ++ f.source := by
  refine ⟨textsWritten_eq_map_inits fragments, ?_, ?_⟩
  · rw [textsWritten_eq_map_inits, List.forall_mem_map]
    intro sofar _
    exact trimmed_intercalate (joins_fragments sofar).solid
  · intro f
    refine ⟨f.solid_source, f.joins_parts.write_empty, f.joins_parts.solid, ?_⟩
    intro text
    rw [f.joins_source.adds, addWords_cons, addWords_nil, addWord]
    simp only [String.isEmpty_iff]

/-- A branch whose body holds one with every slot empty, and a literal with no text behind it. -/
def bareNest : Branch where
  body := [.branch {}]
  post := pushes [.string ""]

theorem bareNest_join :
    textsWritten [.value (.string " "), bareNest, .el []] = ["", "\" \"",
      "\" \" br \x7b br \x7b \x7d \x7d \"\"",
      "\" \" br \x7b br \x7b \x7d \x7d \"\" el \x7b \x7d"] ∧
    ("\" \"" ∈ textsWritten [.value (.string " "), bareNest, .el []] ∧ Trimmed "\" \"") ∧
    Fragment.parts bareNest = ["br", "\x7b", "br \x7b \x7d", "\x7d", "\"\""] ∧
    ("br \x7b \x7d" ∈ Fragment.parts bareNest ∧ Solid "br \x7b \x7d") ∧
    bareNest.write "F" = "F br \x7b br \x7b \x7d \x7d \"\"" := by
  obtain ⟨htexts, htrimmed, hfragment⟩ :=
    textsWritten_join [.value (.string " "), bareNest, .el []]
  obtain ⟨-, -, hsolid, hwrite⟩ := hfragment bareNest
  exact ⟨htexts.trans (by decide), ⟨by decide, htrimmed _ (by decide)⟩, by decide,
    ⟨by decide, hsolid _ (by decide)⟩, (hwrite "F").trans (by decide)⟩

end BranchCases
