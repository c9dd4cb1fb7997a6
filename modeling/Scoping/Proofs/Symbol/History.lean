import Mathlib.Data.Finset.Card
import Mathlib.Data.Finset.Dedup
import Mathlib.Data.List.Nodup
import Scoping.Proofs.Symbol.Table

/-!
# What a table has been asked for decides what it holds

A history is the list of all actions on a table that began with the empty text alone; whoever else
works with the same table adds to the same history. As long as there is room, all ways of handing a
text to the table do the same (`step_of_handed`), so that the texts of the table are those of the
history, each at the place of its first occurrence, behind the empty text (`texts_after`). All that
is promised about symbols follows from that list and from the table being well formed: a symbol
stands for one text, for ever, and is the place of that text in the list (`numbering_after`).
-/

namespace Scoping

/-- The text that an action hands to the table, to be numbered if it is new. -/
def TableAction.handed? : TableAction → Option String
  | .intern new | .internOwned new | .tryIntern new => some new
  | .text _ => none

def TableReply.symbol? : TableReply → Option Symbol
  | .symbol s | .tried (.ok s) => some s
  | .tried (.error _) | .text _ => none

namespace SymbolTable

/-- The symbol that an action would be answered by. -/
def answer? (t : SymbolTable) (action : TableAction) : Option Symbol :=
  match (t.step action).1 with
  | .ok reply => reply.symbol?
  | .error _ => none

/-- A table after some actions. -/
def after (t : SymbolTable) (actions : List TableAction) : SymbolTable :=
  actions.foldl (fun t action => (t.step action).2) t

/-- The texts handed to a table in the course of a history. -/
def handed (actions : List TableAction) : List String := actions.filterMap TableAction.handed?

theorem after_append (t : SymbolTable) (actions later : List TableAction) :
    t.after (actions ++ later) = (t.after actions).after later :=
  List.foldl_append

theorem handed_append (actions later : List TableAction) :
    handed (actions ++ later) = handed actions ++ handed later :=
  List.filterMap_append

variable {t : SymbolTable}

/-! ## One action -/

theorem step_of_not_handed {action : TableAction} (h : action.handed? = none) :
    (t.step action).2 = t := by
  cases action with
  | text s => rfl
  | intern text | internOwned text => cases h
  | tryIntern text => cases h

theorem intern?_eq (t : SymbolTable) (text : String) :
    t.intern? text = .ok (t.intern text) ∨
      Symbol.maxIndex < t.size ∧ t.intern? text = .error ⟨t.size⟩ := by
  unfold intern? intern
  cases t.symbol? text with
  | some s => exact .inl rfl
  | none =>
    by_cases hfull : Symbol.maxIndex < t.size
    · exact .inr ⟨hfull, if_pos hfull⟩
    · exact .inl (if_neg hfull)

/-- While there is room it makes no difference how a text is handed over. -/
theorem step_of_handed {action : TableAction} {text : String} (h : action.handed? = some text)
    (hroom : t.size ≤ Symbol.maxIndex) :
    (t.step action).2 = (t.intern text).2 ∧ t.answer? action = some (t.intern text).1 := by
  cases action with
  | text s => cases h
  | intern text' | internOwned text' =>
    cases h
    exact ⟨rfl, rfl⟩
  | tryIntern text' =>
    cases h
    rcases t.intern?_eq text with htried | ⟨hfull, -⟩
    · constructor
      · rw [step, htried]
      · rw [answer?, step, htried]
        rfl
    · omega

/-! ## Many actions -/

theorem WF.after (wf : t.WF) (actions : List TableAction) : (t.after actions).WF := by
  induction actions generalizing t with
  | nil => exact wf
  | cons action actions ih => exact ih (wf.step action)

theorem WF.grows_step (wf : t.WF) (action : TableAction) : Grows t (t.step action).2 := by
  cases action with
  | text s => exact .refl t
  | intern text | internOwned text => exact (wf.intern text).2.1
  | tryIntern text =>
    rcases t.intern?_eq text with htried | ⟨-, htried⟩
    · rw [SymbolTable.step, htried]
      exact (wf.intern text).2.1
    · rw [SymbolTable.step, htried]
      exact .refl t

/-- Whatever happened to a table, its first text is the empty one. -/
theorem Reachable.text_empty (h : t.Reachable) : t.text Symbol.empty = .ok "" := by
  induction h with
  | new => rfl
  | step h action ih => exact (h.wf.grows_step action).text_eq ih

theorem WF.grows_after (wf : t.WF) (actions : List TableAction) : Grows t (t.after actions) := by
  induction actions generalizing t with
  | nil => exact .refl t
  | cons action actions ih => exact (wf.grows_step action).trans (ih (wf.step action))

/-! ## The texts of a well-formed table -/

section texts

variable (wf : t.WF)

include wf

theorem WF.mem_texts_iff {text : String} :
    text ∈ t.texts.toList ↔ ∃ s, t.symbol? text = some s := by
  rw [List.mem_iff_getElem?]
  constructor
  · rintro ⟨i, hi⟩
    rw [Array.getElem?_toList] at hi
    exact ⟨⟨i⟩, wf.symbol?_iff.2 (text_eq_ok_iff.2 hi)⟩
  · rintro ⟨s, hs⟩
    have hi := text_eq_ok_iff.1 (wf.symbol?_iff.1 hs)
    exact ⟨s.index, by rwa [Array.getElem?_toList]⟩

/-- No text stands at two places. -/
theorem WF.eq_of_text_eq {s s' : Symbol} {text : String} (h : t.text s = .ok text)
    (h' : t.text s' = .ok text) : s = s' := by
  rw [← wf.symbol?_iff] at h h'
  exact Option.some.inj (h.symm.trans h')

theorem WF.nodup_texts : t.texts.toList.Nodup := by
  rw [List.nodup_iff_injective_getElem]
  intro i j hij
  have hsame : ∀ k : Fin t.texts.toList.length, t.text ⟨k⟩ = .ok t.texts.toList[k] := by
    intro k
    rw [text_eq_ok_iff, ← Array.getElem?_toList]
    exact List.getElem?_eq_getElem k.isLt
  have hsymbol := wf.eq_of_text_eq (hsame i) ((hsame j).trans (congrArg _ hij.symm))
  exact Fin.ext (congrArg Symbol.index hsymbol)

/-- The number of a text is its place. -/
theorem WF.index_eq {s : Symbol} {text : String} (h : t.text s = .ok text) :
    s.index = t.texts.toList.idxOf text := by
  have hi := text_eq_ok_iff.1 h
  rw [← Array.getElem?_toList] at hi
  obtain ⟨hlt, heq⟩ := List.getElem?_eq_some_iff.1 hi
  rw [← heq, wf.nodup_texts.idxOf_getElem]

theorem WF.texts_intern (text : String) :
    (t.intern text).2.texts.toList =
      if text ∈ t.texts.toList then t.texts.toList else t.texts.toList ++ [text] := by
  rw [SymbolTable.intern]
  cases h : t.symbol? text with
  | some s => rw [if_pos (wf.mem_texts_iff.2 ⟨s, h⟩)]
  | none =>
    have hnew : text ∉ t.texts.toList := fun hmem => by
      obtain ⟨s, hs⟩ := wf.mem_texts_iff.1 hmem
      rw [h] at hs
      cases hs
    rw [if_neg hnew, SymbolTable.append, Array.toList_push]

theorem WF.intern_of_mem {text : String} (h : text ∈ t.texts.toList) :
    (t.intern text).2 = t := by
  obtain ⟨s, hs⟩ := wf.mem_texts_iff.1 h
  rw [SymbolTable.intern, hs]

end texts

/-! ## The texts of a history -/

/-- The texts that a table holds at the end of a history, in the order of first occurrence. -/
def firsts (actions : List TableAction) : List String := ("" :: handed actions).eraseDups

theorem mem_firsts {actions : List TableAction} {text : String} :
    text ∈ firsts actions ↔ text = "" ∨ text ∈ handed actions := by
  rw [firsts, List.mem_eraseDups, List.mem_cons]

theorem eraseDups_concat (l : List String) (text : String) :
    (l ++ [text]).eraseDups = if text ∈ l then l.eraseDups else l.eraseDups ++ [text] := by
  rw [List.eraseDups_append]
  by_cases hmem : text ∈ l
  · simp [List.removeAll, hmem]
  · simp [List.removeAll, hmem, List.eraseDups_cons]

/-- One more action adds its text at the end, unless it is there already. -/
theorem firsts_concat (actions : List TableAction) (action : TableAction) :
    firsts (actions ++ [action]) = match action.handed? with
      | none => firsts actions
      | some text =>
        if text ∈ firsts actions then firsts actions else firsts actions ++ [text] := by
  unfold firsts
  rw [handed_append]
  cases h : action.handed? with
  | none => simp [handed, h]
  | some text =>
    have hone : handed [action] = [text] := by simp [handed, h]
    rw [hone, ← List.cons_append, eraseDups_concat]
    simp only [List.mem_eraseDups]

section room

variable {actions : List TableAction}

/-- There is room for all texts of a history, of which the empty text is always one. -/
def Fits (actions : List TableAction) : Prop :=
  ("" :: handed actions).toFinset.card < Nat.pow 2 32

theorem Fits.of_append {later : List TableAction} (h : Fits (actions ++ later)) : Fits actions := by
  refine Nat.lt_of_le_of_lt (Finset.card_le_card fun text hmem => ?_) h
  rw [List.mem_toFinset] at hmem ⊢
  rw [handed_append, ← List.cons_append]
  exact List.mem_append_left _ hmem

theorem size_le_of_texts (h : Fits actions) (wf : t.WF) (htexts : t.texts.toList = firsts actions) :
    t.size ≤ Symbol.maxIndex := by
  have hset : t.texts.toList.toFinset = ("" :: handed actions).toFinset := by
    ext text
    rw [htexts, List.mem_toFinset, List.mem_toFinset, mem_firsts, List.mem_cons]
  have hsize : t.texts.toList.length < Nat.pow 2 32 := by
    rw [← List.toFinset_card_of_nodup wf.nodup_texts, hset]
    exact h
  rw [Array.length_toList] at hsize
  exact Nat.le_of_lt_succ hsize

/-- A table holds what it was asked for. The induction is on the last action. -/
theorem texts_after (h : Fits actions) : (new.after actions).texts.toList = firsts actions := by
  induction actions using List.reverseRecOn with
  | nil => rfl
  | append_singleton actions action ih =>
    have wf := wf_new.after actions
    have htexts := ih h.of_append
    have hroom := size_le_of_texts h.of_append wf htexts
    rw [after_append, firsts_concat]
    show ((new.after actions).step action).2.texts.toList = _
    cases hhanded : action.handed? with
    | none => rw [step_of_not_handed hhanded, htexts]
    | some text => rw [(step_of_handed hhanded hroom).1, wf.texts_intern, htexts]

theorem size_after_le (h : Fits actions) : (new.after actions).size ≤ Symbol.maxIndex :=
  size_le_of_texts h (wf_new.after actions) (texts_after h)

end room

/-! ## What is promised about symbols -/

/-- At place `i` of a history a text was handed over, and a symbol was answered. -/
structure Numbered (actions : List TableAction) (i : Nat) (text : String) (s : Symbol) : Prop where
  handed : actions[i]?.bind TableAction.handed? = some text
  answered : actions[i]?.bind (new.after (actions.take i)).answer? = some s

structure Numbering (actions : List TableAction) : Prop where
  /-- Every text that is handed over is answered by a symbol, its place among all texts. -/
  numbered : ∀ {i text}, actions[i]?.bind TableAction.handed? = some text →
    Numbered actions i text ⟨(firsts actions).idxOf text⟩
  same_iff : ∀ {i j text other s s'}, Numbered actions i text s → Numbered actions j other s' →
    (s = s' ↔ text = other)
  /-- From then on the symbol has the text. -/
  text_eq : ∀ {i n text s}, Numbered actions i text s → i < n →
    (new.after (actions.take n)).text s = .ok text
  inverse : ∀ {text s},
    (new.after actions).symbol? text = some s ↔ (new.after actions).text s = .ok text
  empty : (new.after actions).symbol? "" = some Symbol.empty
  texts : (new.after actions).texts.toList = firsts actions
  size : (new.after actions).size = 1 + ((handed actions).filter (· ≠ "")).toFinset.card
  /-- A text that is known already changes nothing. -/
  known : ∀ {action text}, action.handed? = some text → text ∈ firsts actions →
    ((new.after actions).step action).2 = new.after actions

section numbering

variable {actions : List TableAction} (h : Fits actions)

include h

theorem Fits.take (n : Nat) : Fits (actions.take n) := by
  rw [← List.take_append_drop n actions] at h
  exact h.of_append

/-- Right after its action the answered symbol has the text. -/
theorem Numbered.text_take_succ {i : Nat} {text : String} {s : Symbol}
    (hs : Numbered actions i text s) : (new.after (actions.take (i + 1))).text s = .ok text := by
  obtain ⟨action, haction, hhanded⟩ := Option.bind_eq_some_iff.1 hs.handed
  have hroom := size_after_le (h.take i)
  obtain ⟨htable, hanswer⟩ := step_of_handed (t := new.after (actions.take i)) hhanded hroom
  have hsymbol := hs.answered
  rw [haction, Option.bind_some, hanswer] at hsymbol
  cases hsymbol
  rw [List.take_add_one, haction, after_append]
  show ((new.after (actions.take i)).step action).2.text _ = _
  rw [htable]
  exact ((wf_new.after _).intern text).2.2

theorem Numbered.text_take {i n : Nat} {text : String} {s : Symbol}
    (hs : Numbered actions i text s) (hn : i < n) :
    (new.after (actions.take n)).text s = .ok text := by
  have hsplit := (List.take_append_drop (i + 1) (actions.take n)).symm
  rw [List.take_take, Nat.min_eq_left hn] at hsplit
  rw [hsplit, after_append]
  exact ((wf_new.after _).grows_after _).text_eq (hs.text_take_succ h)

theorem Numbered.text_after {i : Nat} {text : String} {s : Symbol}
    (hs : Numbered actions i text s) : (new.after actions).text s = .ok text := by
  have hlt : i < actions.length := by
    obtain ⟨action, haction, -⟩ := Option.bind_eq_some_iff.1 hs.handed
    exact (List.getElem?_eq_some_iff.1 haction).1
  rw [← List.take_length (l := actions)]
  exact hs.text_take h hlt

theorem Numbered.eq_idxOf {i : Nat} {text : String} {s : Symbol}
    (hs : Numbered actions i text s) : s = ⟨(firsts actions).idxOf text⟩ := by
  have hindex := (wf_new.after actions).index_eq (hs.text_after h)
  rw [texts_after h] at hindex
  exact congrArg Symbol.mk hindex

theorem numbered_of_handed {i : Nat} {text : String}
    (hhanded : actions[i]?.bind TableAction.handed? = some text) :
    ∃ s, Numbered actions i text s := by
  obtain ⟨action, haction, htext⟩ := Option.bind_eq_some_iff.1 hhanded
  have hroom := size_after_le (h.take i)
  have hanswer := (step_of_handed (t := new.after (actions.take i)) htext hroom).2
  refine ⟨((new.after (actions.take i)).intern text).1, hhanded, ?_⟩
  rw [haction, Option.bind_some]
  exact hanswer

end numbering

theorem card_firsts (actions : List TableAction) :
    (firsts actions).toFinset.card = 1 + ((handed actions).filter (· ≠ "")).toFinset.card := by
  have hset : (firsts actions).toFinset =
      insert "" ((handed actions).filter (· ≠ "")).toFinset := by
    ext text
    rw [List.mem_toFinset, mem_firsts, Finset.mem_insert, List.mem_toFinset, List.mem_filter]
    by_cases htext : text = ""
    · simp [htext]
    · simp [htext]
  rw [hset, Finset.card_insert_of_notMem, Nat.add_comm]
  simp

/-- After any history with fewer texts than a table has room for, symbols and texts are in one to
one correspondence, and have been all along. -/
theorem numbering_after {actions : List TableAction} (h : Fits actions) : Numbering actions := by
  have wf := wf_new.after actions
  refine
    { numbered := fun hhanded => ?_
      same_iff := fun hs hs' => ?_
      text_eq := fun hs hn => hs.text_take h hn
      inverse := wf.symbol?_iff
      empty := ?_
      texts := texts_after h
      size := ?_
      known := fun haction hmem => ?_ }
  · obtain ⟨s, hs⟩ := numbered_of_handed h hhanded
    rw [← hs.eq_idxOf h]
    exact hs
  · have htext := hs.text_after h
    have htext' := hs'.text_after h
    constructor
    · rintro rfl
      exact Except.ok.inj (htext.symm.trans htext')
    · rintro rfl
      exact wf.eq_of_text_eq htext htext'
  · exact wf.symbol?_iff.2 ((wf_new.grows_after actions).text_eq rfl)
  · rw [← card_firsts, ← texts_after h, List.toFinset_card_of_nodup wf.nodup_texts]
    exact Array.length_toList.symm
  · rw [(step_of_handed haction (size_after_le h)).1]
    exact wf.intern_of_mem ((texts_after h).symm ▸ hmem)

/-- A text handed over twice, in two ways, with a question about an unknown symbol in between. -/
theorem numbering_after_repeated :
    let actions : List TableAction :=
      [.intern "b", .tryIntern "", .text ⟨7⟩, .tryIntern "a", .tryIntern "b", .internOwned "ab"]
    Fits actions ∧ Numbering actions ∧
      Numbered actions 4 "b" ⟨1⟩ ∧ firsts actions = ["", "b", "a", "ab"] := by
  intro actions
  have hfits : Fits actions := by unfold Fits; decide
  have hfirsts : firsts actions = ["", "b", "a", "ab"] := by decide
  have hnumbering := numbering_after hfits
  refine ⟨hfits, hnumbering, ?_, hfirsts⟩
  have hb := hnumbering.numbered (show actions[4]?.bind TableAction.handed? = some "b" from rfl)
  rw [hfirsts] at hb
  exact hb

end SymbolTable

end Scoping
