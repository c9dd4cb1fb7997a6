import Scoping.Proofs.Decimal.Text
import Scoping.Proofs.Syntax.Tree

/-!
# Reverse Polish form can be read back

The text of a tree is a sequence of tokens: operands, and then what is done to them. Every token but
a unary operator is preceded by a space, the first one included if the text is given one more in
front; a unary operator is glued to what stands before it.

Reading the tokens with a stack gives the tree without its parentheses (`foldl_feed_tokens`), so
that nothing else is lost between trees and tokens. Between tokens and text nothing is lost at all,
as long as names are identifiers and numbers are finite (`Plain`): a token ends where a space or a
unary operator begins, for neither occurs in a token after its first character, and the words that
the tokens are written with are different (`word_injective`). Therefore two expressions print the
same exactly when they are the same but for parentheses (`reversePolish_eq_iff`).
-/

namespace Scoping

/-! ## Tokens -/

inductive Token where
  | literal (value : Literal String)
  | name (name : String)
  | assign
  | binary (op : BinaryOp)
  | logical (op : LogicalOp)
  | unary (op : UnaryOp)
deriving DecidableEq

def Tree.tokens : Tree → List Token
  | literal value => [.literal value]
  | reference name => [.name name]
  | assign name value => .name name :: (value.tokens ++ [.assign])
  | binary left op right => left.tokens ++ (right.tokens ++ [.binary op])
  | unary op operand => operand.tokens ++ [.unary op]
  | logical left op right => left.tokens ++ (right.tokens ++ [.logical op])
  | group inner => inner.tokens

namespace Token

/-- What a token does to the trees read so far, the last one first. The target of an assignment is
read like any other name. -/
def feed : List Tree → Token → List Tree
  | stack, literal value => .literal value :: stack
  | stack, name n => .reference n :: stack
  | value :: .reference n :: stack, assign => .assign n value :: stack
  | right :: left :: stack, binary op => .binary left op right :: stack
  | right :: left :: stack, logical op => .logical left op right :: stack
  | operand :: stack, unary op => .unary op operand :: stack
  | stack, _ => stack

theorem foldl_feed_tokens (tree : Tree) (stack : List Tree) :
    tree.tokens.foldl feed stack = tree.bare :: stack := by
  induction tree generalizing stack with
  | literal value => rfl
  | reference name => rfl
  | assign name value ih =>
    rw [Tree.tokens, List.foldl_cons, List.foldl_append, ih]
    rfl
  | binary left op right ihl ihr =>
    rw [Tree.tokens, List.foldl_append, List.foldl_append, ihl, ihr]
    rfl
  | unary op operand ih =>
    rw [Tree.tokens, List.foldl_append, ih]
    rfl
  | logical left op right ihl ihr =>
    rw [Tree.tokens, List.foldl_append, List.foldl_append, ihl, ihr]
    rfl
  | group inner ih => exact ih stack

theorem bare_eq_of_tokens {a b : Tree} (h : a.tokens = b.tokens) : a.bare = b.bare := by
  have hread := foldl_feed_tokens a []
  rw [h, foldl_feed_tokens b []] at hread
  exact (List.cons.inj hread).1.symm

/-! ## Tokens in a text -/

/-- What a token is written with. -/
def word : Token → String
  | literal value => value.text
  | name n => n
  | assign => "="
  | binary op => op.symbol
  | logical op => op.symbol
  | unary op => op.symbol

def isGlued : Token → Bool
  | unary _ => true
  | _ => false

/-- A token with the space in front of it, if it has one. -/
def chars (t : Token) : List Char := if t.isGlued then t.word.toList else ' ' :: t.word.toList

theorem flatMap_chars_tokens (tree : Tree) :
    tree.tokens.flatMap chars = ' ' :: tree.text.toList := by
  induction tree with
  | literal value => simp [Tree.tokens, Tree.text, chars, isGlued, word]
  | reference name => simp [Tree.tokens, Tree.text, chars, isGlued, word]
  | assign name value ih => simp [Tree.tokens, Tree.text, ih, chars, isGlued, word]
  | binary left op right ihl ihr => simp [Tree.tokens, Tree.text, ihl, ihr, chars, isGlued, word]
  | unary op operand ih => simp [Tree.tokens, Tree.text, ih, chars, isGlued, word]
  | logical left op right ihl ihr => simp [Tree.tokens, Tree.text, ihl, ihr, chars, isGlued, word]
  | group inner ih => exact ih

/-! ## Plain trees -/

end Token

/-- The characters that an identifier may begin with. Whatever lies beyond the first 128 characters
counts as a letter. -/
def isNameStart (c : Char) : Bool := c.isAlpha || c == '_' || decide (127 < c.toNat)

def isNamePart (c : Char) : Bool := isNameStart c || c.isDigit

def reservedWords : List String := ["nil", "true", "false", "and", "or"]

structure IsIdentifier (name : String) : Prop where
  chars : ∃ c cs, name.toList = c :: cs ∧ isNameStart c = true ∧ ∀ d ∈ cs, isNamePart d = true
  not_reserved : name ∉ reservedWords

/-- Nothing but `nil`, truth values and finite numbers. -/
def Literal.Plain : Literal String → Prop
  | .nil | .bool _ => True
  | .number bits => IsFiniteDouble bits
  | .str _ => False

def Tree.Plain : Tree → Prop
  | literal value => value.Plain
  | reference name => IsIdentifier name
  | assign name value => IsIdentifier name ∧ value.Plain
  | binary left _ right | logical left _ right => left.Plain ∧ right.Plain
  | unary _ operand => operand.Plain
  | group inner => inner.Plain

namespace Token

def Plain : Token → Prop
  | literal value => value.Plain
  | name n => IsIdentifier n
  | _ => True

theorem plain_of_mem_tokens {tree : Tree} (h : tree.Plain) : ∀ t ∈ tree.tokens, t.Plain := by
  induction tree with
  | literal value => exact List.forall_mem_singleton.2 h
  | reference name => exact List.forall_mem_singleton.2 h
  | assign name value ih =>
    refine List.forall_mem_cons.2 ⟨h.1, List.forall_mem_append.2 ⟨ih h.2, ?_⟩⟩
    exact List.forall_mem_singleton.2 trivial
  | binary left op right ihl ihr =>
    refine List.forall_mem_append.2 ⟨ihl h.1, List.forall_mem_append.2 ⟨ihr h.2, ?_⟩⟩
    exact List.forall_mem_singleton.2 trivial
  | unary op operand ih =>
    exact List.forall_mem_append.2 ⟨ih h, List.forall_mem_singleton.2 trivial⟩
  | logical left op right ihl ihr =>
    refine List.forall_mem_append.2 ⟨ihl h.1, List.forall_mem_append.2 ⟨ihr h.2, ?_⟩⟩
    exact List.forall_mem_singleton.2 trivial
  | group inner ih => exact ih h

/-! ## Words -/

/-- The characters that end a token: the space before the next one, and the unary operators. -/
def isBreak (c : Char) : Bool := c == ' ' || c == '-' || c == '!'

/-- The tokens with a fixed word, but for the unary operators. -/
def fixed : List Token :=
  [literal .nil, literal (.bool true), literal (.bool false), assign] ++
    BinaryOp.all.map binary ++ LogicalOp.all.map logical

/-- The three kinds of words in a text. -/
inductive WordKind where
  | number
  | name
  | fixed
deriving DecidableEq

/-- Which kind of word this is: a number begins with a digit, with or without a sign in front. -/
def wordKind (word : String) : WordKind :=
  match word.toList with
  | [] => .fixed
  | c :: cs =>
    if c.isDigit || c == '-' && cs.head?.any Char.isDigit then .number
    else if isNameStart c && decide (word ∉ reservedWords) then .name
    else .fixed

/-- What the tokens are that are written with words of one kind. -/
def OfKind (t : Token) : WordKind → Prop
  | .number => ∃ bits, t = literal (.number bits) ∧ IsFiniteDouble bits
  | .name => ∃ n, t = name n ∧ IsIdentifier n
  | .fixed => t ∈ fixed

theorem exists_ofKind {t : Token} (h : t.Plain) (hglued : t.isGlued = false) :
    ∃ kind, t.OfKind kind := by
  have isFixed : ∀ {t : Token}, t ∈ fixed → ∃ kind, t.OfKind kind := fun h => ⟨.fixed, h⟩
  cases t with
  | literal value =>
    cases value with
    | nil => exact isFixed (by decide)
    | bool b => cases b <;> exact isFixed (by decide)
    | number bits => exact ⟨.number, bits, rfl, h⟩
    | str s => cases h
  | name n => exact ⟨.name, n, rfl, h⟩
  | assign => exact isFixed (by decide)
  | binary op => cases op <;> exact isFixed (by decide)
  | logical op => cases op <;> exact isFixed (by decide)
  | unary op => cases hglued

theorem wordKind_fixed : ∀ t ∈ fixed, wordKind t.word = .fixed := by decide +kernel

theorem word_fixed_nodup : (fixed.map word).Nodup := by decide +kernel

theorem isBreak_fixed : ∀ t ∈ fixed,
    t.word.toList ≠ [] ∧ t.word.toList.tail.any isBreak = false := by decide +kernel

section characters

variable {c : Char}

theorem isBreak_eq_false {P : Char → Prop} (hspace : ¬ P ' ') (hminus : ¬ P '-') (hbang : ¬ P '!')
    (h : P c) : isBreak c = false := by
  by_contra hbreak
  rw [Bool.not_eq_false, isBreak, Bool.or_eq_true, Bool.or_eq_true, beq_iff_eq, beq_iff_eq,
    beq_iff_eq] at hbreak
  rcases hbreak with (rfl | rfl) | rfl
  · exact hspace h
  · exact hminus h
  · exact hbang h

theorem isBreak_of_isDigit (h : c.isDigit = true ∨ c = '.') : isBreak c = false :=
  isBreak_eq_false (P := fun c => c.isDigit = true ∨ c = '.') (by decide) (by decide) (by decide) h

theorem isBreak_of_isNamePart (h : isNamePart c = true) : isBreak c = false :=
  isBreak_eq_false (P := fun c => isNamePart c = true) (by decide) (by decide) (by decide) h

theorem isDigit_of_isNameStart (h : isNameStart c = true) : c.isDigit = false := by
  have hbeyond : '9'.toNat < c.toNat := by
    rw [isNameStart, Bool.or_eq_true, Bool.or_eq_true, decide_eq_true_eq, beq_iff_eq] at h
    rcases h with (halpha | rfl) | hhigh
    · rcases Bool.or_eq_true_iff.1 halpha with hupper | hlower
      · have hletter : 'A' ≤ c := (of_decide_eq_true hupper).1
        exact Nat.lt_of_lt_of_le (by decide) hletter
      · have hletter : 'a' ≤ c := of_decide_eq_true (Bool.and_eq_true_iff.1 hlower).1
        exact Nat.lt_of_lt_of_le (by decide) hletter
    · decide
    · exact Nat.lt_trans (by decide) hhigh
  by_contra hdigit
  rw [Bool.not_eq_false, Char.isDigit_iff_toNat] at hdigit
  exact Nat.not_le_of_lt hbeyond hdigit.2

end characters

theorem wordKind_number {bits : UInt64} (h : IsFiniteDouble bits) :
    wordKind (word (literal (.number bits))) = .number := by
  obtain ⟨c, cs, htext, hc, -⟩ := doubleText_shape h
  unfold wordKind word
  rcases htext with htext | htext
  · simp only [Literal.text, htext, hc, Bool.true_or, if_true]
  · simp [Literal.text, htext, hc]

theorem wordKind_name {n : String} (h : IsIdentifier n) : wordKind n = .name := by
  obtain ⟨⟨c, cs, htext, hc, -⟩, hreserved⟩ := h
  have hminus : c ≠ '-' := by
    rintro rfl
    cases hc
  unfold wordKind
  simp [htext, hc, isDigit_of_isNameStart hc, hminus, hreserved]

/-- The kind of a word can be seen from the word. -/
theorem wordKind_word {t : Token} {kind : WordKind} (h : t.OfKind kind) :
    wordKind t.word = kind := by
  cases kind with
  | number =>
    obtain ⟨bits, rfl, hbits⟩ := h
    exact wordKind_number hbits
  | name =>
    obtain ⟨n, rfl, hn⟩ := h
    exact wordKind_name hn
  | fixed => exact wordKind_fixed t h

/-- Different tokens are written differently. -/
theorem word_injective {t u : Token} (ht : t.Plain) (hu : u.Plain) (hglued : t.isGlued = false)
    (hglued' : u.isGlued = false) (h : t.word = u.word) : t = u := by
  obtain ⟨kind, hkind⟩ := exists_ofKind ht hglued
  obtain ⟨kind', hkind'⟩ := exists_ofKind hu hglued'
  obtain rfl : kind = kind' := by rw [← wordKind_word hkind, h, wordKind_word hkind']
  cases kind with
  | number =>
    obtain ⟨bits, rfl, hbits⟩ := hkind
    obtain ⟨bits', rfl, hbits'⟩ := hkind'
    rw [doubleText_injective hbits hbits' h]
  | name =>
    obtain ⟨n, rfl, -⟩ := hkind
    obtain ⟨n', rfl, -⟩ := hkind'
    exact congrArg name h
  | fixed => exact List.inj_on_of_nodup_map word_fixed_nodup hkind hkind' h

/-- Nothing in a word looks like its end, but perhaps its first character. -/
theorem word_shape {t : Token} (ht : t.Plain) (hglued : t.isGlued = false) :
    ∃ c cs, t.word.toList = c :: cs ∧ ∀ d ∈ cs, isBreak d = false := by
  obtain ⟨kind, hkind⟩ := exists_ofKind ht hglued
  cases kind with
  | number =>
    obtain ⟨bits, rfl, hbits⟩ := hkind
    obtain ⟨c, cs, htext, hc, hcs⟩ := doubleText_shape hbits
    have hrest : ∀ d ∈ cs, isBreak d = false := fun d hd => isBreak_of_isDigit (hcs d hd)
    rcases htext with htext | htext
    · exact ⟨c, cs, htext, hrest⟩
    · exact ⟨'-', c :: cs, htext, List.forall_mem_cons.2 ⟨isBreak_of_isDigit (.inl hc), hrest⟩⟩
  | name =>
    obtain ⟨n, rfl, hn⟩ := hkind
    obtain ⟨c, cs, htext, -, hcs⟩ := hn.chars
    exact ⟨c, cs, htext, fun d hd => isBreak_of_isNamePart (hcs d hd)⟩
  | fixed =>
    obtain ⟨hne, htail⟩ := isBreak_fixed t hkind
    obtain ⟨c, cs, hword⟩ := List.exists_cons_of_ne_nil hne
    rw [hword, List.tail_cons, List.any_eq_false] at htail
    exact ⟨c, cs, hword, fun d hd => Bool.eq_false_of_not_eq_true (htail d hd)⟩

/-! ## Reading a text -/

/-- What follows a token in a text: nothing, or a character that ends the token. -/
def Follows (rest : List Char) : Prop := ∀ c ∈ rest.head?, isBreak c = true

theorem chars_of_isGlued {t : Token} (h : t.isGlued = true) :
    ∃ c, t.chars = [c] ∧ isBreak c = true ∧ c ≠ ' ' := by
  cases t with
  | unary op =>
    cases op with
    | neg => exact ⟨'-', by decide +kernel⟩
    | not => exact ⟨'!', by decide +kernel⟩
  | _ => cases h

theorem chars_of_not_isGlued {t : Token} (h : t.isGlued = false) :
    t.chars = ' ' :: t.word.toList := by
  rw [chars, h, if_neg Bool.false_ne_true]

theorem eq_of_chars_of_isGlued {t u : Token} (ht : t.isGlued = true) (hu : u.isGlued = true)
    (h : t.chars = u.chars) : t = u := by
  cases t with
  | unary op =>
    cases u with
    | unary op' => cases op <;> cases op' <;> revert h <;> decide +kernel
    | _ => cases hu
  | _ => cases ht

/-- In front of a token there is a character that ends the token before it. -/
theorem exists_chars_eq (t : Token) : ∃ c cs, t.chars = c :: cs ∧ isBreak c = true := by
  cases hglued : t.isGlued with
  | true =>
    obtain ⟨c, hc, hbreak, -⟩ := chars_of_isGlued hglued
    exact ⟨c, [], hc, hbreak⟩
  | false => exact ⟨' ', _, chars_of_not_isGlued hglued, rfl⟩

theorem follows_flatMap (ts : List Token) : Follows (ts.flatMap chars) := by
  cases ts with
  | nil => nofun
  | cons t ts =>
    obtain ⟨c, cs, heq, hbreak⟩ := t.exists_chars_eq
    rw [List.flatMap_cons, heq]
    intro d hd
    cases hd
    exact hbreak

/-- The first part of a list is known from the whole, if a break ends it and none is in it. -/
theorem append_inj_of_isBreak {cs cs' rest rest' : List Char} (hcs : ∀ d ∈ cs, isBreak d = false)
    (hcs' : ∀ d ∈ cs', isBreak d = false) (hrest : Follows rest) (hrest' : Follows rest')
    (h : cs ++ rest = cs' ++ rest') : cs = cs' ∧ rest = rest' := by
  have split : ∀ {cs rest : List Char}, (∀ d ∈ cs, isBreak d = false) → Follows rest →
      (cs ++ rest).takeWhile (!isBreak ·) = cs := by
    intro cs rest hcs hrest
    rw [List.takeWhile_append_of_pos fun d hd => by rw [hcs d hd]; rfl]
    cases rest with
    | nil => exact List.append_nil cs
    | cons c rest =>
      rw [List.takeWhile_cons, hrest c rfl]
      exact List.append_nil cs
  have heq : cs = cs' := by
    rw [← split hcs hrest, h, split hcs' hrest']
  subst heq
  exact ⟨rfl, List.append_cancel_left h⟩

/-- The first token of a text is known from the text. -/
theorem chars_append_inj {t u : Token} (ht : t.Plain) (hu : u.Plain) {rest rest' : List Char}
    (hrest : Follows rest) (hrest' : Follows rest') (h : t.chars ++ rest = u.chars ++ rest') :
    t = u ∧ rest = rest' := by
  cases hglued : t.isGlued with
  | true =>
    obtain ⟨c, hc, -, hspace⟩ := chars_of_isGlued hglued
    cases hglued' : u.isGlued with
    | true =>
      obtain ⟨c', hc', -⟩ := chars_of_isGlued hglued'
      obtain ⟨heq, hrest⟩ := List.append_inj h (by rw [hc, hc']; rfl)
      exact ⟨eq_of_chars_of_isGlued hglued hglued' heq, hrest⟩
    | false =>
      rw [hc, chars_of_not_isGlued hglued'] at h
      exact absurd (List.cons.inj h).1 hspace
  | false =>
    cases hglued' : u.isGlued with
    | true =>
      obtain ⟨c', hc', -, hspace⟩ := chars_of_isGlued hglued'
      rw [chars_of_not_isGlued hglued, hc'] at h
      exact absurd (List.cons.inj h).1.symm hspace
    | false =>
      rw [chars_of_not_isGlued hglued, chars_of_not_isGlued hglued'] at h
      obtain ⟨c, cs, hword, hcs⟩ := word_shape ht hglued
      obtain ⟨c', cs', hword', hcs'⟩ := word_shape hu hglued'
      rw [hword, hword'] at h
      obtain ⟨rfl, htail⟩ := List.cons.inj (List.cons.inj h).2
      obtain ⟨rfl, hrest'⟩ := append_inj_of_isBreak hcs hcs' hrest hrest' htail
      have hsame : t.word = u.word := String.toList_injective (hword.trans hword'.symm)
      exact ⟨word_injective ht hu hglued hglued' hsame, hrest'⟩

theorem tokens_eq_of_chars {ts us : List Token} (hts : ∀ t ∈ ts, t.Plain)
    (hus : ∀ u ∈ us, u.Plain) (h : ts.flatMap chars = us.flatMap chars) : ts = us := by
  have chars_ne_nil : ∀ t : Token, ∀ {rest : List Char}, t.chars ++ rest ≠ [] := by
    intro t rest hnil
    obtain ⟨c, cs, heq, -⟩ := t.exists_chars_eq
    rw [heq] at hnil
    cases hnil
  induction ts generalizing us with
  | nil =>
    cases us with
    | nil => rfl
    | cons u us => exact absurd h.symm (chars_ne_nil u)
  | cons t ts ih =>
    cases us with
    | nil => exact absurd h (chars_ne_nil t)
    | cons u us =>
      rw [List.forall_mem_cons] at hts hus
      rw [List.flatMap_cons, List.flatMap_cons] at h
      obtain ⟨rfl, hrest⟩ :=
        chars_append_inj hts.1 hus.1 (follows_flatMap ts) (follows_flatMap us) h
      rw [ih hts.2 hus.2 hrest]

end Token

variable {a b : Tree}

/-- Plain trees print the same exactly when they differ in nothing but parentheses. -/
theorem Tree.text_eq_text_iff (ha : a.Plain) (hb : b.Plain) :
    a.text = b.text ↔ a.bare = b.bare := by
  constructor
  · intro h
    apply Token.bare_eq_of_tokens
    apply Token.tokens_eq_of_chars (Token.plain_of_mem_tokens ha) (Token.plain_of_mem_tokens hb)
    rw [Token.flatMap_chars_tokens, Token.flatMap_chars_tokens, h]
  · intro h
    rw [← a.text_bare, h, b.text_bare]

/-- Expressions of any two programs print, and their texts are the same exactly when what they
unfold to is, but for parentheses. -/
theorem Program.reversePolish_eq_iff {p q : Program Symbol} {symbols symbols' : SymbolTable}
    {id id' : ExprId} (hleft : p.Unfolds symbols id a) (hright : q.Unfolds symbols' id' b)
    (ha : a.Plain) (hb : b.Plain) : ∃ text text', p.reversePolish symbols id = .ok text ∧
      q.reversePolish symbols' id' = .ok text' ∧ (text = text' ↔ a.bare = b.bare) :=
  ⟨a.text, b.text, hleft.reversePolish_eq, hright.reversePolish_eq, Tree.text_eq_text_iff ha hb⟩

/-- The assignment of minus three with its sign changed, once with parentheses around the number and
once without, in programs that number the name differently. -/
theorem Program.reversePolish_eq_iff_negated :
    let three : Literal Symbol := .number 0xC008000000000000
    let p : Program Symbol :=
      { exprs := #[⟨.literal three, .nowhere⟩, ⟨.group ⟨0⟩, .nowhere⟩, ⟨.unary .neg ⟨1⟩, .nowhere⟩,
          ⟨.assign ⟨⟨1⟩, .nowhere⟩ ⟨2⟩, .nowhere⟩]
        stmts := #[]
        bodies := #[] }
    let q : Program Symbol :=
      { exprs := #[⟨.literal three, .nowhere⟩, ⟨.assign ⟨⟨2⟩, .nowhere⟩ ⟨2⟩, .nowhere⟩,
          ⟨.unary .neg ⟨0⟩, .nowhere⟩]
        stmts := #[]
        bodies := #[] }
    let symbols := (SymbolTable.new.intern "a").2
    let symbols' := ((SymbolTable.new.intern "b").2.intern "a").2
    let value : Tree := .literal (.number 0xC008000000000000)
    let a : Tree := .assign "a" (.unary .neg (.group value))
    let b : Tree := .assign "a" (.unary .neg value)
    p.Unfolds symbols ⟨3⟩ a ∧ q.Unfolds symbols' ⟨1⟩ b ∧ a.Plain ∧ b.Plain ∧
      p.reversePolish symbols ⟨3⟩ = .ok "a -3- =" ∧ q.reversePolish symbols' ⟨1⟩ = .ok "a -3- =" ∧
      a.bare = b.bare := by
  intro three p q symbols symbols' value a b
  have hp : p.Unfolds symbols ⟨3⟩ a := .assign rfl rfl (.unary rfl (.group rfl (.literal rfl rfl)))
  have hq : q.Unfolds symbols' ⟨1⟩ b := .assign rfl rfl (.unary rfl (.literal rfl rfl))
  have hname : IsIdentifier "a" := ⟨⟨'a', [], rfl, rfl, nofun⟩, by decide⟩
  have hvalue : IsFiniteDouble 0xC008000000000000 := by decide
  obtain ⟨text, text', htext, htext', hiff⟩ :=
    Program.reversePolish_eq_iff hp hq ⟨hname, hvalue⟩ ⟨hname, hvalue⟩
  have hprinted : p.reversePolish symbols ⟨3⟩ = .ok "a -3- =" := by decide +kernel
  have hprinted' : q.reversePolish symbols' ⟨1⟩ = .ok "a -3- =" := by decide +kernel
  have heq : text = text' :=
    Except.ok.inj ((htext.symm.trans hprinted).trans (hprinted'.symm.trans htext'))
  exact ⟨hp, hq, ⟨hname, hvalue⟩, ⟨hname, hvalue⟩, hprinted, hprinted', hiff.1 heq⟩

end Scoping
