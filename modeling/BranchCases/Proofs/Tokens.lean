import BranchCases.Source
import BranchCases.Proofs.Flattening
import Std.Data.String.ToInt

/-
The words of a source text. Main results: writing a construct adds the words of its items
(`Branch.write_eq`), and a text whose literals have no quote in them is cut into words in one
way only (`spelled_injective`).
-/
namespace BranchCases

/-- A word of a source text. -/
inductive Token where
  | literal (v : Value)
  | br | elbr | el
  | opening | closing
  deriving DecidableEq

def Token.text : Token → String
  | .literal v => v.source
  | .br => "br"
  | .elbr => "elbr"
  | .el => "el"
  | .opening => "\x7b"
  | .closing => "\x7d"

mutual

def Item.tokens : Item → List Token
  | .push v => [.literal v]
  | .core cond body arms el =>
    .br :: (tokensAll cond ++ .opening :: (tokensAll body ++ .closing ::
      (tokensArms arms ++ tokensAlternative el)))

def tokensAll : List Item → List Token
  | [] => []
  | item :: rest => item.tokens ++ tokensAll rest

def tokensArms : List Arm → List Token
  | [] => []
  | ⟨cond, body⟩ :: rest =>
    .elbr :: (tokensAll cond ++ .opening :: (tokensAll body ++ .closing :: tokensArms rest))

def tokensAlternative : Option (List Item) → List Token
  | none => []
  | some body => .el :: .opening :: (tokensAll body ++ [.closing])

end

theorem tokensAll_append (first rest : List Item) :
    tokensAll (first ++ rest) = tokensAll first ++ tokensAll rest := by
  induction first with
  | nil => rfl
  | cons item first ih => rw [List.cons_append, tokensAll, tokensAll, ih, List.append_assoc]

def Token.literal? : Token → Option Value
  | .literal v => some v
  | .br | .elbr | .el | .opening | .closing => none

mutual

theorem Statement.literals_tokens : (s : Statement) →
    (tokensAll s.items).filterMap Token.literal? = s.literals
  | .push _ => rfl
  | .branch b => b.literals_tokens

/-- The words of a branch hold its literals, in the order of its source. -/
theorem Branch.literals_tokens : (b : Branch) →
    (tokensAll b.items).filterMap Token.literal? = b.literals
  | ⟨pre, cond, body, elbr, el, post⟩ => by
      simp [Branch.items, tokensAll_append, tokensAll, Item.tokens, Branch.literals,
        List.filterMap_cons, Token.literal?, literalsAll_tokens pre, literalsAll_tokens cond,
        literalsAll_tokens body, literalsClauses_tokens elbr, literalsAlternative_tokens el,
        literalsAll_tokens post]

theorem literalsAll_tokens : (stmts : List Statement) →
    (tokensAll (itemsAll stmts)).filterMap Token.literal? = literalsAll stmts
  | [] => rfl
  | s :: rest => by
      rw [itemsAll, tokensAll_append, List.filterMap_append, s.literals_tokens,
        literalsAll_tokens rest, literalsAll]

theorem literalsClauses_tokens : (elbr : List Elbr) →
    (tokensArms (itemsClauses elbr)).filterMap Token.literal? = literalsClauses elbr
  | [] => rfl
  | ⟨cond, body⟩ :: rest => by
      simp [itemsClauses, tokensArms, literalsClauses, List.filterMap_cons, Token.literal?,
        literalsAll_tokens cond, literalsAll_tokens body, literalsClauses_tokens rest]

theorem literalsAlternative_tokens : (el : Option (List Statement)) →
    (tokensAlternative (itemsAlternative el)).filterMap Token.literal? = literalsAlternative el
  | none => rfl
  | some body => by
      simp [itemsAlternative, tokensAlternative, literalsAlternative, List.filterMap_cons,
        Token.literal?, literalsAll_tokens body]

end

/-! ## Writing -/

def addTokens (tokens : List Token) (text : String) : String :=
  tokens.foldl (fun text token => addWord token.text text) text

@[simp] theorem addTokens_nil (text : String) : addTokens [] text = text := rfl

@[simp] theorem addTokens_cons (token : Token) (rest : List Token) (text : String) :
    addTokens (token :: rest) text = addTokens rest (addWord token.text text) := rfl

@[simp] theorem addTokens_append (first rest : List Token) (text : String) :
    addTokens (first ++ rest) text = addTokens rest (addTokens first text) :=
  List.foldl_append

mutual

theorem Statement.write_eq : (s : Statement) → (text : String) →
    s.write text = addTokens (tokensAll s.items) text
  | .push _, _ => rfl
  | .branch b, text => b.write_eq text

/-- Writing a branch adds the words of its items. -/
theorem Branch.write_eq : (b : Branch) → (text : String) →
    b.write text = addTokens (tokensAll b.items) text
  | ⟨pre, cond, body, elbr, el, post⟩, text => by
      simp only [Branch.write, Branch.items, tokensAll_append, tokensAll, Item.tokens,
        List.cons_append, List.append_assoc, addTokens_append, addTokens_cons,
        writeAll_eq pre, writeAll_eq cond, writeAll_eq body, writeClauses_eq elbr,
        writeAlternative_eq el, writeAll_eq post, Token.text]

theorem writeAll_eq : (stmts : List Statement) → (text : String) →
    writeAll stmts text = addTokens (tokensAll (itemsAll stmts)) text
  | [], _ => rfl
  | s :: rest, text => by
      rw [writeAll, itemsAll, tokensAll_append, addTokens_append, s.write_eq, writeAll_eq rest]

theorem writeClauses_eq : (elbr : List Elbr) → (text : String) →
    writeClauses elbr text = addTokens (tokensArms (itemsClauses elbr)) text
  | [], _ => rfl
  | ⟨cond, body⟩ :: rest, text => by
      simp only [writeClauses, Elbr.write, itemsClauses, tokensArms, addTokens_append,
        addTokens_cons, writeAll_eq cond, writeAll_eq body, writeClauses_eq rest, Token.text]

theorem writeAlternative_eq : (el : Option (List Statement)) → (text : String) →
    writeAlternative el text = addTokens (tokensAlternative (itemsAlternative el)) text
  | none, _ => rfl
  | some body, text => by
      simp only [writeAlternative, itemsAlternative, tokensAlternative, addTokens_append,
        addTokens_cons, addTokens_nil, writeAll_eq body, Token.text]

end

/-! ## Cutting a text into words -/

theorem mem_toList_repr {n : Int} {c : Char} (h : c ∈ n.repr.toList) : c = '-' ∨ c.isDigit := by
  have digits {k : Nat} (hc : c ∈ k.repr.toList) : c.isDigit := by
    rw [Nat.toList_repr] at hc
    exact Nat.isDigit_of_mem_toDigits (by decide) (by decide) hc
  rw [Int.repr_eq_if] at h
  split at h
  · exact Or.inr (digits h)
  · rw [String.toList_append, List.mem_append] at h
    rcases h with h | h
    · exact Or.inl (by simpa using h)
    · exact Or.inr (digits h)

theorem repr_ne_empty (n : Int) : n.repr ≠ "" := by
  rw [Int.repr_eq_if]
  split
  · exact Nat.repr_ne_empty
  · simp

/-- A word that is not a string literal. -/
def Token.Plain : Token → Prop
  | .literal (.string _) => False
  | .literal (.int _) | .literal (.bool _) | .literal .nil => True
  | .br | .elbr | .el | .opening | .closing => True

/-- The plain words that are no numbers. -/
def Token.fixed : List Token :=
  [.literal (.bool true), .literal (.bool false), .literal .nil,
    .br, .elbr, .el, .opening, .closing]

theorem Token.number_or_fixed {t : Token} (h : t.Plain) :
    (∃ n, t = .literal (.int n)) ∨ t ∈ fixed := by
  cases t with
  | literal v =>
      cases v with
      | int n => exact Or.inl ⟨n, rfl⟩
      | string s => cases h
      | bool b => exact Or.inr (by cases b <;> decide)
      | nil => exact Or.inr (by decide)
  | br | elbr | el | opening | closing => exact Or.inr (by decide)

theorem Token.text_ne_number {t : Token} (h : t ∈ fixed) (n : Int64) :
    t.text ≠ (Token.literal (.int n)).text := by
  have other : ∀ t ∈ fixed, t.text.toList.any (fun c => c != '-' && !c.isDigit) := by decide
  obtain ⟨c, hc, hother⟩ := List.any_eq_true.mp (other t h)
  intro he
  rw [he] at hc
  rcases mem_toList_repr hc with rfl | digit
  · cases hother
  · simp [digit] at hother

theorem Token.eq_of_text_eq {t t' : Token} (h : t.Plain) (h' : t'.Plain) (he : t.text = t'.text) :
    t = t' := by
  have distinct : ∀ t ∈ fixed, ∀ t' ∈ fixed, t.text = t'.text → t = t' := by decide
  rcases t.number_or_fixed h with ⟨n, rfl⟩ | hf <;>
    rcases t'.number_or_fixed h' with ⟨n', rfl⟩ | hf'
  · have hn : n = n' := Int64.toInt_inj.mp (Int.repr_injective he)
    rw [hn]
  · exact absurd he.symm (Token.text_ne_number hf' n)
  · exact absurd he (Token.text_ne_number hf n')
  · exact distinct t hf t' hf' he

theorem Token.not_mem_text {t : Token} (h : t.Plain) :
    ' ' ∉ t.text.toList ∧ '"' ∉ t.text.toList := by
  have words : ∀ t ∈ fixed, ' ' ∉ t.text.toList ∧ '"' ∉ t.text.toList := by decide
  rcases t.number_or_fixed h with ⟨n, rfl⟩ | hf
  · constructor <;> intro hc <;> rcases mem_toList_repr hc with hc | hc <;> cases hc
  · exact words t hf

/-- The part up to the first mark is cut off in one way only. -/
theorem append_mark_cancel {isMark : Char → Bool} {u u' r r' : List Char} {d d' : Char}
    (hu : ∀ c ∈ u, isMark c = false) (hu' : ∀ c ∈ u', isMark c = false) (hd : isMark d = true)
    (hd' : isMark d' = true) (h : u ++ d :: r = u' ++ d' :: r') : u = u' ∧ d = d' ∧ r = r' := by
  have cut {w t : List Char} {m : Char} (hw : ∀ c ∈ w, isMark c = false) (hm : isMark m = true) :
      (w ++ m :: t).takeWhile (fun c => !isMark c) = w := by
    rw [List.takeWhile_append_of_pos fun c hc => by simp [hw c hc]]
    simp [hm]
  obtain rfl : u = u' := by rw [← cut hu hd (t := r), h, cut hu' hd']
  obtain ⟨hmark, hrest⟩ := List.cons.inj (List.append_cancel_left h)
  exact ⟨rfl, hmark, hrest⟩

/-- A part up to the first `d` is cut off in one way only. -/
theorem append_cons_cancel {d : Char} {u u' r r' : List Char} (hu : d ∉ u) (hu' : d ∉ u')
    (h : u ++ d :: r = u' ++ d :: r') : u = u' ∧ r = r' := by
  have other {w : List Char} (hw : d ∉ w) : ∀ c ∈ w, (c == d) = false := by
    intro c hc
    exact beq_eq_false_iff_ne.mpr fun he => hw (he ▸ hc)
  obtain ⟨hpart, -, hrest⟩ :=
    append_mark_cancel (other hu) (other hu') (beq_self_eq_true d) (beq_self_eq_true d) h
  exact ⟨hpart, hrest⟩

def Token.QuoteFree : Token → Prop
  | .literal v => v.QuoteFree
  | .br | .elbr | .el | .opening | .closing => True

theorem Branch.QuoteFree.tokens {b : Branch} (h : b.QuoteFree) :
    ∀ t ∈ tokensAll b.items, t.QuoteFree := by
  intro t ht
  cases t with
  | literal v =>
      have hv : v ∈ (tokensAll b.items).filterMap Token.literal? :=
        List.mem_filterMap.mpr ⟨.literal v, ht, rfl⟩
      rw [b.literals_tokens] at hv
      exact h v hv
  | br | elbr | el | opening | closing => trivial

theorem Token.plain_or_string (t : Token) : t.Plain ∨ ∃ s, t = .literal (.string s) := by
  cases t with
  | literal v =>
      cases v with
      | string s => exact Or.inr ⟨s, rfl⟩
      | int n | bool b | nil => exact Or.inl trivial
  | br | elbr | el | opening | closing => exact Or.inl trivial

theorem Token.toList_text_string (s : String) :
    (Token.literal (.string s)).text.toList = '"' :: (s.toList ++ ['"']) := by
  simp [Token.text, Value.source]

/-- A plain word does not begin like a string literal. -/
theorem Token.text_ne_string {t : Token} (h : t.Plain) (s : String) (r r' : List Char) :
    t.text.toList ++ ' ' :: r ≠ (Token.literal (.string s)).text.toList ++ r' := by
  rw [Token.toList_text_string]
  intro he
  cases hl : t.text.toList with
  | nil =>
      rw [hl] at he
      exact absurd (List.cons.inj he).1 (by decide)
  | cons c rest =>
      rw [hl] at he
      have hc : c = '"' := (List.cons.inj he).1
      exact (Token.not_mem_text h).2 (by rw [hl, hc]; exact List.mem_cons_self)

theorem Token.text_cancel {t t' : Token} (ht : t.QuoteFree) (ht' : t'.QuoteFree)
    {r r' : List Char} (h : t.text.toList ++ ' ' :: r = t'.text.toList ++ ' ' :: r') :
    t = t' ∧ r = r' := by
  rcases t.plain_or_string with hp | ⟨s, rfl⟩ <;> rcases t'.plain_or_string with hp' | ⟨s', rfl⟩
  · obtain ⟨htext, hrest⟩ :=
      append_cons_cancel (Token.not_mem_text hp).1 (Token.not_mem_text hp').1 h
    exact ⟨Token.eq_of_text_eq hp hp' (String.toList_inj.mp htext), hrest⟩
  · exact absurd h (Token.text_ne_string hp s' r (' ' :: r'))
  · exact absurd h.symm (Token.text_ne_string hp' s r' (' ' :: r))
  · rw [Token.toList_text_string, Token.toList_text_string] at h
    simp only [List.cons_append, List.append_assoc, List.nil_append, List.cons.injEq,
      true_and] at h
    obtain ⟨hs, hrest⟩ := append_cons_cancel ht ht' h
    exact ⟨by rw [String.toList_inj.mp hs], (List.cons.inj hrest).2⟩

/-- The characters of the words, with a space after each. -/
def spelled (tokens : List Token) : List Char :=
  tokens.flatMap fun token => token.text.toList ++ [' ']

theorem spelled_cons (token : Token) (rest : List Token) :
    spelled (token :: rest) = token.text.toList ++ ' ' :: spelled rest := by
  simp [spelled]

theorem Token.text_ne_empty (t : Token) : t.text ≠ "" := by
  have words : ∀ t ∈ fixed, t.text ≠ "" := by decide
  rcases t.plain_or_string with hp | ⟨s, rfl⟩
  · rcases t.number_or_fixed hp with ⟨n, rfl⟩ | hf
    · exact repr_ne_empty n.toInt
    · exact words t hf
  · intro he
    have hl := Token.toList_text_string s
    rw [he] at hl
    cases hl

/-- Characters with which no word begins that a space ends. -/
def EndsWords (rest : List Char) : Prop :=
  ∀ (t : Token) (more : List Char), rest ≠ t.text.toList ++ ' ' :: more

theorem endsWords_nil : EndsWords [] := by
  intro t more h
  have hlength := congrArg List.length h
  simp at hlength

theorem Token.eq_closing {t : Token} (h : t.Plain) {rest : List Char}
    (ht : t.text.toList = '\x7d' :: rest) : t = .closing := by
  have only : ∀ t ∈ fixed, t.text.toList.head? = some '\x7d' → t = .closing := by decide
  rcases t.number_or_fixed h with ⟨n, rfl⟩ | hf
  · have hc : '\x7d' ∈ n.toInt.repr.toList := ht ▸ List.mem_cons_self
    rcases mem_toList_repr hc with hc | hc <;> cases hc
  · exact only t hf (congrArg List.head? ht)

/-- A closing brace is a word only where a space follows it. -/
theorem endsWords_closing {c : Char} (hc : c ≠ ' ') (rest : List Char) :
    EndsWords ('\x7d' :: c :: rest) := by
  intro t more h
  rcases t.plain_or_string with hp | ⟨s, rfl⟩
  · cases htext : t.text.toList with
    | nil => exact t.text_ne_empty (String.toList_inj.mp htext)
    | cons d tail =>
        rw [htext] at h
        obtain ⟨rfl, hrest⟩ := List.cons.inj h
        have ht := Token.eq_closing hp htext
        rw [ht] at htext
        obtain rfl : tail = [] := (List.cons.inj htext).2.symm
        exact hc (List.cons.inj hrest).1
  · rw [Token.toList_text_string] at h
    exact absurd (List.cons.inj h).1 (by decide)

/-- Words whose literals have no quotes in them are cut off in one way only. -/
theorem spelled_cancel {tokens tokens' : List Token} {rest rest' : List Char}
    (h : ∀ t ∈ tokens, t.QuoteFree) (h' : ∀ t ∈ tokens', t.QuoteFree) (hrest : EndsWords rest)
    (hrest' : EndsWords rest') (hs : spelled tokens ++ rest = spelled tokens' ++ rest') :
    tokens = tokens' ∧ rest = rest' := by
  induction tokens generalizing tokens' with
  | nil =>
      cases tokens' with
      | nil => exact ⟨rfl, hs⟩
      | cons t' tail' =>
          rw [spelled_cons, List.append_assoc] at hs
          exact absurd hs (hrest t' _)
  | cons t tail ih =>
      cases tokens' with
      | nil =>
          rw [spelled_cons, List.append_assoc] at hs
          exact absurd hs.symm (hrest' t _)
      | cons t' tail' =>
          rw [List.forall_mem_cons] at h h'
          rw [spelled_cons, spelled_cons, List.append_assoc, List.append_assoc] at hs
          obtain ⟨rfl, htail⟩ := Token.text_cancel h.1 h'.1 hs
          obtain ⟨rfl, hends⟩ := ih h.2 h'.2 htail
          exact ⟨rfl, hends⟩

/-- A text without quotes inside its literals is cut into words in one way only. -/
theorem spelled_injective {tokens tokens' : List Token} (h : ∀ t ∈ tokens, t.QuoteFree)
    (h' : ∀ t ∈ tokens', t.QuoteFree) (hs : spelled tokens = spelled tokens') :
    tokens = tokens' := by
  have hends : spelled tokens ++ [] = spelled tokens' ++ [] := congrArg (· ++ []) hs
  exact (spelled_cancel h h' endsWords_nil endsWords_nil hends).1

theorem addWord_of_ne_empty (word : String) {text : String} (h : text ≠ "") :
    addWord word text = text ++ " " ++ word := by
  simp [addWord, h]

theorem toList_addTokens (tokens : List Token) {text : String} (h : text ≠ "") :
    (addTokens tokens text).toList ++ [' '] = text.toList ++ ' ' :: spelled tokens := by
  induction tokens generalizing text with
  | nil => rfl
  | cons token rest ih =>
      have hadd := addWord_of_ne_empty token.text h
      have hne : addWord token.text text ≠ "" := by simp [hadd]
      rw [addTokens_cons, ih hne, hadd, spelled_cons]
      simp

theorem toList_addTokens_empty {tokens : List Token} (h : tokens ≠ []) :
    (addTokens tokens "").toList ++ [' '] = spelled tokens := by
  cases tokens with
  | nil => exact absurd rfl h
  | cons token rest =>
      have hfirst : addWord token.text "" = token.text := rfl
      rw [addTokens_cons, hfirst, toList_addTokens rest token.text_ne_empty, spelled_cons]

end BranchCases
