import Lox.Diagnostic.Template
import Mathlib.Data.List.Basic

/-!
# Filled templates

A template can be written in one way as literals with slots between them: no literal has an opening
brace in it and no key a closing one. What remains may be a slot that is never closed. So keys may hold
opening braces, literals may hold closing ones, and slots may be empty or adjacent, and still nobody can
read a template in two ways.

A template is filled in once. Each value stands where its slot stood, whatever braces it has, and when a
slot stays open the template stands for itself. The value of a slot is what the context holds for its key,
and the empty text when it holds nothing, but for a few keys that every context answers by itself.

## Contents
- `Layout`: a template written as literals and slots.
- `Layout.chars_injective`, `exists_layout`: every template is written in one way.
- `segments_chars`, `fill_layout`: what a template is taken apart into, and how it is filled in.
- `ownText`, `inheritedKeys`: what a context holds, and the keys it answers without holding them.
- `Compared`: what slots are filled in with by a context and by what it holds.
- `render_singlePass`: what is rendered.
- `inherited_key_not_empty`: a text for a key that nobody gave a value.
-/

namespace Lox.Template

/-! ## Layouts -/

/-- A slot with the literal behind it. -/
structure Slot where
  key : List Char
  literal : List Char
  closed : '}' ∉ key
  plain : '{' ∉ literal

/-- What stands behind an opening brace that is never closed. -/
structure Unclosed where
  chars : List Char
  unclosed : '}' ∉ chars

/-- A template written as a literal, slots with a literal behind each, and a slot that is never closed, if
there is one. -/
structure Layout where
  first : List Char
  slots : List Slot
  open? : Option Unclosed
  plain : '{' ∉ first

/-- The name that a slot asks for. -/
def Slot.name (slot : Slot) : String := String.ofList slot.key

/-- A slot as it is written. -/
def Slot.chars (slot : Slot) : List Char := '{' :: (slot.key ++ '}' :: slot.literal)

/-- What is left open, as it is written. -/
def openChars : Option Unclosed → List Char
  | none => []
  | some rest => '{' :: rest.chars

/-- Slots as they are written, with what is left open behind them. -/
def slotChars (slots : List Slot) (open? : Option Unclosed) : List Char :=
  slots.flatMap Slot.chars ++ openChars open?

namespace Layout

/-- A layout as it is written. -/
def chars (layout : Layout) : List Char := layout.first ++ slotChars layout.slots layout.open?

def text (layout : Layout) : String := String.ofList layout.chars

end Layout

theorem slotChars_cons (slot : Slot) (slots : List Slot) (open? : Option Unclosed) :
    slotChars (slot :: slots) open? =
      '{' :: (slot.key ++ '}' :: (slot.literal ++ slotChars slots open?)) := by
  simp [slotChars, Slot.chars]

/-- Behind a literal there is nothing or an opening brace. -/
theorem slotChars_eq (slots : List Slot) (open? : Option Unclosed) :
    slotChars slots open? = [] ∨ ∃ chars, slotChars slots open? = '{' :: chars := by
  cases slots with
  | nil =>
      cases open? with
      | none => exact .inl rfl
      | some rest => exact .inr ⟨rest.chars, rfl⟩
  | cons slot slots => exact .inr ⟨_, slotChars_cons slot slots open?⟩

/-! ## Every template is written in one way -/

/-- A text has one first place where a character stands. -/
theorem cut_unique {c : Char} {front front' back back' : List Char} (h : c ∉ front) (h' : c ∉ front')
    (heq : front ++ c :: back = front' ++ c :: back') : front = front' ∧ back = back' := by
  rcases List.append_eq_append_iff.1 heq with ⟨mid, hfront, hback⟩ | ⟨mid, hfront, hback⟩
  · cases mid with
    | nil =>
        rw [List.append_nil] at hfront
        exact ⟨hfront.symm, List.tail_eq_of_cons_eq hback⟩
    | cons d mid =>
        obtain rfl : c = d := List.head_eq_of_cons_eq hback
        rw [hfront] at h'
        exact absurd (List.mem_append_right _ List.mem_cons_self) h'
  · cases mid with
    | nil =>
        rw [List.append_nil] at hfront
        exact ⟨hfront, (List.tail_eq_of_cons_eq hback).symm⟩
    | cons d mid =>
        obtain rfl : c = d := List.head_eq_of_cons_eq hback
        rw [hfront] at h
        exact absurd (List.mem_append_right _ List.mem_cons_self) h

/-- A literal ends at the first opening brace. -/
theorem literal_unique {literal literal' : List Char} (h : '{' ∉ literal) (h' : '{' ∉ literal')
    {slots slots' : List Slot} {open? open?' : Option Unclosed}
    (heq : literal ++ slotChars slots open? = literal' ++ slotChars slots' open?') :
    literal = literal' ∧ slotChars slots open? = slotChars slots' open?' := by
  rcases slotChars_eq slots open? with hnone | ⟨chars, hchars⟩ <;>
    rcases slotChars_eq slots' open?' with hnone' | ⟨chars', hchars'⟩
  · rw [hnone, hnone', List.append_nil, List.append_nil] at heq
    exact ⟨heq, hnone.trans hnone'.symm⟩
  · rw [hnone, hchars', List.append_nil] at heq
    exact absurd (heq ▸ List.mem_append_right _ List.mem_cons_self) h
  · rw [hchars, hnone', List.append_nil] at heq
    exact absurd (heq ▸ List.mem_append_right _ List.mem_cons_self) h'
  · rw [hchars, hchars'] at heq
    obtain ⟨hliteral, hrest⟩ := cut_unique h h' heq
    exact ⟨hliteral, by rw [hchars, hchars', hrest]⟩

/-- Slots can be told from the way they are written. -/
theorem slotChars_injective {slots slots' : List Slot} {open? open?' : Option Unclosed}
    (heq : slotChars slots open? = slotChars slots' open?') : slots = slots' ∧ open? = open?' := by
  induction slots generalizing slots' with
  | nil =>
      cases slots' with
      | nil =>
          refine ⟨rfl, ?_⟩
          cases open? with
          | none =>
              cases open?' with
              | none => rfl
              | some rest' => cases heq
          | some rest =>
              cases open?' with
              | none => cases heq
              | some rest' =>
                  obtain ⟨chars, hrest⟩ := rest
                  obtain ⟨chars', hrest'⟩ := rest'
                  obtain rfl : chars = chars' := List.tail_eq_of_cons_eq heq
                  rfl
      | cons slot' slots' =>
          -- A slot that is closed has a closing brace, and one that is left open has none.
          rw [slotChars_cons] at heq
          cases open? with
          | none => cases heq
          | some rest =>
              have hchars : rest.chars = _ := List.tail_eq_of_cons_eq heq
              refine absurd ?_ rest.unclosed
              rw [hchars]
              exact List.mem_append_right _ List.mem_cons_self
  | cons slot slots ih =>
      rw [slotChars_cons] at heq
      cases slots' with
      | nil =>
          cases open?' with
          | none => cases heq
          | some rest' =>
              have hchars : _ = rest'.chars := List.tail_eq_of_cons_eq heq
              refine absurd ?_ rest'.unclosed
              rw [← hchars]
              exact List.mem_append_right _ List.mem_cons_self
      | cons slot' slots' =>
          rw [slotChars_cons] at heq
          obtain ⟨hkey, hbehind⟩ :=
            cut_unique slot.closed slot'.closed (List.tail_eq_of_cons_eq heq)
          obtain ⟨hliteral, hslots⟩ := literal_unique slot.plain slot'.plain hbehind
          obtain ⟨rfl, rfl⟩ := ih hslots
          obtain ⟨key, literal, hclosed, hplain⟩ := slot
          obtain ⟨key', literal', hclosed', hplain'⟩ := slot'
          obtain rfl : key = key' := hkey
          obtain rfl : literal = literal' := hliteral
          exact ⟨rfl, rfl⟩

/-- **Nobody can read a template in two ways.** -/
theorem Layout.chars_injective {layout layout' : Layout} (heq : layout.chars = layout'.chars) :
    layout = layout' := by
  obtain ⟨first, slots, open?, hplain⟩ := layout
  obtain ⟨first', slots', open?', hplain'⟩ := layout'
  obtain ⟨hfirst, hslots⟩ := literal_unique hplain hplain' heq
  obtain ⟨rfl, rfl⟩ := slotChars_injective hslots
  obtain rfl : first = first' := hfirst
  rfl

/-- **Every template has a layout.** The template is cut at the first opening brace, and behind it at
the first closing one. -/
theorem exists_layout (cs : List Char) : ∃ layout : Layout, layout.chars = cs := by
  by_cases hbrace : '{' ∈ cs
  · obtain ⟨first, behind, hcs, hfirst⟩ := List.eq_append_cons_of_mem hbrace
    by_cases hclose : '}' ∈ behind
    · obtain ⟨key, later, hbehind, hkey⟩ := List.eq_append_cons_of_mem hclose
      have hshorter : later.length < cs.length := by
        rw [hcs, hbehind]
        simp only [List.length_append, List.length_cons]
        omega
      obtain ⟨layout, hlayout⟩ := exists_layout later
      refine ⟨⟨first, ⟨key, layout.first, hkey, layout.plain⟩ :: layout.slots, layout.open?, hfirst⟩, ?_⟩
      rw [hcs, hbehind, ← hlayout]
      exact congrArg (first ++ ·) (slotChars_cons _ _ _)
    · exact ⟨⟨first, [], some ⟨behind, hclose⟩, hfirst⟩, hcs.symm⟩
  · exact ⟨⟨cs, [], none, hbrace⟩, List.append_nil cs⟩
termination_by cs.length

/-! ## Filling in -/

/-- The parts of a slot with the literal behind it. -/
def Slot.parts (slot : Slot) : List Segment := .slot slot.key :: slot.literal.map .char

/-- The part that is left open. -/
def openParts : Option Unclosed → List Segment
  | none => []
  | some _ => [.openSlot]

/-- A literal is taken apart into its characters. -/
theorem segments_literal {literal : List Char} (h : '{' ∉ literal) (behind : List Char) :
    segments (literal ++ behind) = literal.map .char ++ segments behind := by
  induction literal with
  | nil => rfl
  | cons c literal ih =>
      have hc : c ≠ '{' := fun hc => h (hc ▸ List.mem_cons_self)
      have hliteral : '{' ∉ literal := fun hmem => h (List.mem_cons_of_mem _ hmem)
      rw [List.cons_append, segments, if_neg hc, ih hliteral, List.map_cons, List.cons_append]

/-- A key is read up to its closing brace. -/
theorem slotFrom_key {key : List Char} (h : '}' ∉ key) (before behind : List Char) :
    slotFrom before (key ++ '}' :: behind) = .slot (before.reverse ++ key) :: segments behind := by
  induction key generalizing before with
  | nil => rw [List.nil_append, slotFrom, if_pos rfl, List.append_nil]
  | cons c key ih =>
      have hc : c ≠ '}' := fun hc => h (hc ▸ List.mem_cons_self)
      have hkey : '}' ∉ key := fun hmem => h (List.mem_cons_of_mem _ hmem)
      rw [List.cons_append, slotFrom, if_neg hc, ih hkey, List.reverse_cons, List.append_assoc]
      rfl

/-- Without a closing brace the key has no end. -/
theorem slotFrom_unclosed {chars : List Char} (h : '}' ∉ chars) (before : List Char) :
    slotFrom before chars = [.openSlot] := by
  induction chars generalizing before with
  | nil => rw [slotFrom]
  | cons c chars ih =>
      have hc : c ≠ '}' := fun hc => h (hc ▸ List.mem_cons_self)
      have hchars : '}' ∉ chars := fun hmem => h (List.mem_cons_of_mem _ hmem)
      rw [slotFrom, if_neg hc, ih hchars]

theorem segments_slotChars (slots : List Slot) (open? : Option Unclosed) :
    segments (slotChars slots open?) = slots.flatMap Slot.parts ++ openParts open? := by
  induction slots with
  | nil =>
      cases open? with
      | none => rfl
      | some rest =>
          have hopen : slotChars [] (some rest) = '{' :: rest.chars := rfl
          rw [hopen, segments, if_pos rfl, slotFrom_unclosed rest.unclosed]
          rfl
  | cons slot slots ih =>
      rw [slotChars_cons, segments, if_pos rfl, slotFrom_key slot.closed, segments_literal slot.plain, ih,
        List.flatMap_cons, List.append_assoc]
      rfl

/-- A template is taken apart as its layout says. -/
theorem segments_chars (layout : Layout) :
    segments layout.chars =
      layout.first.map .char ++ (layout.slots.flatMap Slot.parts ++ openParts layout.open?) := by
  unfold Layout.chars
  rw [segments_literal layout.plain, segments_slotChars]

/-- A part is left open when the layout leaves a slot open. -/
theorem openSlot_mem_segments_iff (layout : Layout) :
    .openSlot ∈ segments layout.chars ↔ layout.open?.isSome := by
  have hliteral : ∀ literal : List Char, Segment.openSlot ∉ literal.map .char := by
    intro literal hmem
    obtain ⟨c, -, hc⟩ := List.mem_map.1 hmem
    cases hc
  have hslots : Segment.openSlot ∉ layout.slots.flatMap Slot.parts := by
    intro hmem
    obtain ⟨slot, -, hslot⟩ := List.mem_flatMap.1 hmem
    rcases List.mem_cons.1 hslot with hkey | hbehind
    · cases hkey
    · exact hliteral slot.literal hbehind
  rw [segments_chars, List.mem_append, List.mem_append]
  constructor
  · rintro (hfirst | hmid | hopen)
    · exact absurd hfirst (hliteral layout.first)
    · exact absurd hmid hslots
    · cases hrest : layout.open? with
      | none => rw [hrest] at hopen; exact absurd hopen List.not_mem_nil
      | some rest => rfl
  · intro hopen
    obtain ⟨rest, hrest⟩ := Option.isSome_iff_exists.1 hopen
    rw [hrest]
    exact .inr (.inr List.mem_cons_self)

variable {ε : Type} (value : String → Except ε String)

/-- The text of some parts. -/
def fillParts (parts : List Segment) : Except ε (List Char) :=
  (parts.mapM (Segment.fill value)).map List.flatten

/-- A value with the literal behind its slot. -/
def Slot.fill (slot : Slot) : Except ε (List Char) :=
  (value slot.name).map fun text => text.toList ++ slot.literal

theorem fillParts_append (parts parts' : List Segment) :
    fillParts value (parts ++ parts') =
      (do return (← fillParts value parts) ++ (← fillParts value parts')) := by
  unfold fillParts
  rw [List.mapM_append]
  cases parts.mapM (Segment.fill value) with
  | error stop => rfl
  | ok texts =>
      cases parts'.mapM (Segment.fill value) with
      | error stop => rfl
      | ok texts' => exact congrArg Except.ok List.flatten_append

/-- A literal stands for itself. -/
theorem fillParts_literal (literal : List Char) :
    fillParts value (literal.map .char) = .ok literal := by
  induction literal with
  | nil => rfl
  | cons c literal ih =>
      have hcons := fillParts_append value [.char c] (literal.map .char)
      rw [ih] at hcons
      exact hcons

theorem fillParts_slot (slot : Slot) : fillParts value slot.parts = slot.fill value := by
  have hcons := fillParts_append value [.slot slot.key] (slot.literal.map .char)
  rw [fillParts_literal] at hcons
  refine Eq.trans hcons ?_
  unfold fillParts Slot.fill Slot.name
  rw [List.mapM_cons, List.mapM_nil, Segment.fill]
  cases value (String.ofList slot.key) with
  | error stop => rfl
  | ok text => exact congrArg Except.ok (congrArg (· ++ slot.literal) (List.append_nil _))

theorem fillParts_slots (slots : List Slot) :
    fillParts value (slots.flatMap Slot.parts) =
      (slots.mapM (Slot.fill value)).map List.flatten := by
  induction slots with
  | nil => rfl
  | cons slot slots ih =>
      rw [List.flatMap_cons, fillParts_append, fillParts_slot, ih, List.mapM_cons]
      cases slot.fill value with
      | error stop => rfl
      | ok text =>
          cases slots.mapM (Slot.fill value) with
          | error stop => rfl
          | ok texts => rfl

theorem fillParts_open (open? : Option Unclosed) : fillParts value (openParts open?) = .ok [] := by
  cases open? <;> rfl

/-- A layout with its values in the places of its slots. A layout with a slot left open stands for
itself, once the slots in front of that one have their values. -/
def Layout.fill (layout : Layout) : Except ε String :=
  (layout.slots.mapM (Slot.fill value)).map fun texts =>
    if layout.open?.isSome then layout.text else String.ofList (layout.first ++ texts.flatten)

/-- **A template is filled in as its layout.** -/
theorem fill_layout (layout : Layout) : fill layout.text value = layout.fill value := by
  have hparts : fillParts value (segments layout.chars) =
      (layout.slots.mapM (Slot.fill value)).map fun texts => layout.first ++ texts.flatten := by
    rw [segments_chars, fillParts_append, fillParts_append, fillParts_literal, fillParts_slots,
      fillParts_open]
    cases layout.slots.mapM (Slot.fill value) with
    | error stop => rfl
    | ok texts => exact congrArg Except.ok (congrArg (layout.first ++ ·) (List.append_nil _))
  have htext : layout.text.toList = layout.chars := String.toList_ofList
  -- What the parts say as a whole is what the slots say.
  have hfill : fill layout.text value = (fillParts value (segments layout.chars)).map fun chars =>
      if layout.open?.isSome then layout.text else String.ofList chars := by
    unfold fill fillParts
    rw [htext]
    simp only [openSlot_mem_segments_iff]
    cases (segments layout.chars).mapM (Segment.fill value) <;> rfl
  rw [hfill, hparts]
  unfold Layout.fill
  cases layout.slots.mapM (Slot.fill value) <;> rfl

/-! ## What a context answers -/

/-- The text that a context itself holds for a key: nothing when it has no value for it. -/
def ownText (context : Table Datum) (key : String) : Except Datum.TextError String :=
  match context.get? key with
  | none | some .absent => .ok ""
  | some value => value.text

/-- The keys that every context answers, also when it does not hold them. -/
def inheritedKeys : List String :=
  ["constructor", "__proto__", "__defineGetter__", "__defineSetter__", "__lookupGetter__",
    "__lookupSetter__", "hasOwnProperty", "isPrototypeOf", "propertyIsEnumerable", "toLocaleString",
    "toString", "valueOf"]

theorem inheritedText?_isSome_iff (key : String) :
    (inheritedText? key).isSome ↔ key ∈ inheritedKeys := by
  unfold inheritedText? inheritedKeys
  by_cases hconstructor : key = "constructor"
  · simp [hconstructor]
  · by_cases hproto : key = "__proto__"
    · simp [hproto]
    · rw [if_neg hconstructor, if_neg hproto]
      split
      · rename_i hmem
        exact ⟨fun _ => List.mem_cons_of_mem _ (List.mem_cons_of_mem _ hmem), fun _ => rfl⟩
      · rename_i hmem
        refine ⟨fun hsome => absurd hsome Bool.false_ne_true, fun hkey => ?_⟩
        have hrest := (List.mem_cons.1 hkey).resolve_left hconstructor
        exact absurd ((List.mem_cons.1 hrest).resolve_left hproto) hmem

/-- No inherited text is empty. -/
theorem inheritedText?_ne_empty {key text : String} (h : inheritedText? key = some text) :
    text ≠ "" := by
  have hoperation : ∀ name, operationText name ≠ "" := by
    intro name hempty
    have hlength := congrArg String.length hempty
    simp [operationText] at hlength
  unfold inheritedText? at h
  split at h
  · cases h
    exact hoperation _
  · split at h
    · cases h
      decide
    · split at h
      · cases h
        exact hoperation _
      · cases h

/-- A context answers what it holds, for every key but an inherited one that it does not hold. -/
theorem contextText_eq_ownText {context : Table Datum} {key : String}
    (h : context.has key ∨ key ∉ inheritedKeys) : contextText context key = ownText context key := by
  unfold contextText ownText
  cases hget : context.get? key with
  | some value => cases value <;> rfl
  | none =>
      have hnot : key ∉ inheritedKeys := by
        rcases h with hhas | hnot
        · unfold Table.has at hhas
          rw [hget] at hhas
          exact absurd hhas Bool.false_ne_true
        · exact hnot
      rw [← inheritedText?_isSome_iff, Option.not_isSome_iff_eq_none] at hnot
      rw [hnot]
      rfl

theorem get?_of_not_has {context : Table Datum} {key : String} (h : context.has key = false) :
    context.get? key = none := by
  unfold Table.has at h
  exact Option.not_isSome_iff_eq_none.1 (by rw [h]; exact Bool.false_ne_true)

/-- The text for a key that the context does not hold is empty. -/
theorem ownText_of_not_has {context : Table Datum} {key : String} (h : context.has key = false) :
    ownText context key = .ok "" := by
  unfold ownText
  rw [get?_of_not_has h]

/-- An inherited key that a context does not hold has a text all the same. -/
theorem contextText_inherited {context : Table Datum} {key : String} (hhas : context.has key = false)
    (hkey : key ∈ inheritedKeys) : ∃ text, text ≠ "" ∧ contextText context key = .ok text := by
  have hnone := get?_of_not_has hhas
  obtain ⟨text, htext⟩ := Option.isSome_iff_exists.1 ((inheritedText?_isSome_iff key).2 hkey)
  refine ⟨text, inheritedText?_ne_empty htext, ?_⟩
  unfold contextText
  rw [hnone, htext]
  rfl

/-- The context holds what the slots ask for, or nobody else answers. -/
def Answered (context : Table Datum) (slots : List Slot) : Prop :=
  ∀ slot ∈ slots, context.has slot.name ∨ slot.name ∉ inheritedKeys

/-- One of the slots asks for a value that has no text. -/
def Textless (context : Table Datum) (slots : List Slot) : Prop :=
  ∃ slot ∈ slots, ∃ stop, ownText context slot.name = .error stop

theorem answered_cons {context : Table Datum} {slot : Slot} {slots : List Slot} :
    Answered context (slot :: slots) ↔ Answered context [slot] ∧ Answered context slots := by
  unfold Answered
  rw [List.forall_mem_cons, List.forall_mem_singleton]

theorem textless_cons {context : Table Datum} {slot : Slot} {slots : List Slot} :
    Textless context (slot :: slots) ↔ Textless context [slot] ∨ Textless context slots := by
  unfold Textless
  simp only [List.mem_cons, List.not_mem_nil, or_false, exists_eq_or_imp, exists_eq_left]

/-- The texts that come from slots: those a context gives, and those it holds itself. When one value has
no text, neither are there. Otherwise they are the same where nobody else answers, and where somebody does
those from the context are longer. -/
inductive Compared (context : Table Datum) (slots : List Slot) {α : Type} (length : α → Nat) :
    Except Datum.TextError α → Except Datum.TextError α → Prop
  | stopped (stop : Datum.TextError) : Textless context slots →
      Compared context slots length (.error stop) (.error stop)
  | same (text : α) : ¬ Textless context slots → Answered context slots →
      Compared context slots length (.ok text) (.ok text)
  | longer (shown held : α) : ¬ Textless context slots → ¬ Answered context slots →
      length held < length shown → Compared context slots length (.ok shown) (.ok held)

/-- What a slot is filled in with. -/
theorem compared_slot (context : Table Datum) (slot : Slot) :
    Compared context [slot] List.length (slot.fill (contextText context))
      (slot.fill (ownText context)) := by
  have hanswered : Answered context [slot] ↔ (context.has slot.name ∨ slot.name ∉ inheritedKeys) :=
    List.forall_mem_singleton
  have htextless : Textless context [slot] ↔ ∃ stop, ownText context slot.name = .error stop := by
    unfold Textless
    simp only [List.mem_singleton, exists_eq_left]
  by_cases h : context.has slot.name ∨ slot.name ∉ inheritedKeys
  · unfold Slot.fill
    rw [contextText_eq_ownText h]
    cases hown : ownText context slot.name with
    | error stop => exact .stopped stop (htextless.2 ⟨stop, hown⟩)
    | ok text =>
        refine .same _ (fun htext => ?_) (hanswered.2 h)
        obtain ⟨stop, hstop⟩ := htextless.1 htext
        rw [hown] at hstop
        cases hstop
  · have hhas : context.has slot.name = false := eq_false_of_ne_true (not_or.1 h).1
    have hkey : slot.name ∈ inheritedKeys := not_not.1 (not_or.1 h).2
    obtain ⟨text, hne, htext⟩ := contextText_inherited hhas hkey
    have hown := ownText_of_not_has hhas
    unfold Slot.fill
    rw [htext, hown]
    refine .longer _ _ (fun htext => ?_) (mt hanswered.1 h) ?_
    · obtain ⟨stop, hstop⟩ := htextless.1 htext
      rw [hown] at hstop
      cases hstop
    · have hpos : 0 < text.toList.length := List.length_pos_iff.2 (mt String.toList_eq_nil_iff.1 hne)
      rw [List.length_append, List.length_append]
      exact Nat.add_lt_add_right hpos _

/-- What slots are filled in with, one behind the other. -/
theorem compared_slots (context : Table Datum) (slots : List Slot) :
    Compared context slots (fun texts => texts.flatten.length)
      (slots.mapM (Slot.fill (contextText context))) (slots.mapM (Slot.fill (ownText context))) := by
  induction slots with
  | nil =>
      refine .same [] ?_ (fun slot hslot => absurd hslot List.not_mem_nil)
      rintro ⟨slot, hslot, -⟩
      exact absurd hslot List.not_mem_nil
  | cons slot slots ih =>
      have hslot := compared_slot context slot
      rw [List.mapM_cons, List.mapM_cons]
      generalize slot.fill (contextText context) = first, slot.fill (ownText context) = first' at hslot
      generalize slots.mapM (Slot.fill (contextText context)) = later,
        slots.mapM (Slot.fill (ownText context)) = later' at ih
      -- both stop at the first value without a text; else one text that is longer makes all longer
      cases hslot with
      | stopped stop htextless => exact .stopped stop (textless_cons.2 (.inl htextless))
      | same text hfirst hanswered =>
          cases ih with
          | stopped stop htextless => exact .stopped stop (textless_cons.2 (.inr htextless))
          | same texts hlater hanswered' =>
              have hnone := fun htextless => (textless_cons.1 htextless).elim hfirst hlater
              exact .same _ hnone (answered_cons.2 ⟨hanswered, hanswered'⟩)
          | longer shown held hlater hnot hlonger =>
              have hnone := fun htextless => (textless_cons.1 htextless).elim hfirst hlater
              refine .longer _ _ hnone (fun h => hnot (answered_cons.1 h).2) ?_
              simp only [List.flatten_cons, List.length_append]
              omega
      | longer shown held hfirst hnot hlonger =>
          cases ih with
          | stopped stop htextless => exact .stopped stop (textless_cons.2 (.inr htextless))
          | same texts hlater hanswered' =>
              have hnone := fun htextless => (textless_cons.1 htextless).elim hfirst hlater
              refine .longer _ _ hnone (fun h => hnot (answered_cons.1 h).1) ?_
              simp only [List.flatten_cons, List.length_append]
              omega
          | longer shown' held' hlater hnot' hlonger' =>
              have hnone := fun htextless => (textless_cons.1 htextless).elim hfirst hlater
              refine .longer _ _ hnone (fun h => hnot (answered_cons.1 h).1) ?_
              simp only [List.flatten_cons, List.length_append]
              omega

/-- A layout is filled in with what the context holds, unless somebody else answers for a slot and that
can be seen: no slot is left open, and every value has a text. -/
theorem fill_contextText_iff (context : Table Datum) (layout : Layout) :
    layout.fill (contextText context) = layout.fill (ownText context) ↔
      layout.open?.isSome ∨ Textless context layout.slots ∨ Answered context layout.slots := by
  have hslots := compared_slots context layout.slots
  unfold Layout.fill
  generalize layout.slots.mapM (Slot.fill (contextText context)) = shown,
    layout.slots.mapM (Slot.fill (ownText context)) = held at hslots
  cases hslots with
  | stopped stop htextless => exact ⟨fun _ => .inr (.inl htextless), fun _ => rfl⟩
  | same texts _ hanswered => exact ⟨fun _ => .inr (.inr hanswered), fun _ => rfl⟩
  | longer shown held htextless hnot hlonger =>
      by_cases hopen : layout.open?.isSome
      · refine ⟨fun _ => .inl hopen, fun _ => ?_⟩
        simp only [Except.map, if_pos hopen]
      · simp only [Except.map, if_neg hopen]
        constructor
        · intro heq
          have htexts := String.ofList_injective (Except.ok.inj heq)
          rw [List.append_cancel_left htexts] at hlonger
          exact absurd hlonger (Nat.lt_irrefl _)
        · rintro (h | h | h)
          · exact absurd h hopen
          · exact absurd h htextless
          · exact absurd h hnot

/-- **Templates are filled in once.** Every template has one layout, and is filled in as it says: when a
slot stays open, the template stands for itself; otherwise each value stands where its slot stood, and
nobody looks for slots in it. (A value that has no text has none in a template either.) The values are the
ones that the context holds, and the empty text for what it does not hold, as long as no slot asks for an
inherited key that the context does not hold; such a slot has a text of its own, and in a template without
open slots, whose values have texts, it is seen. -/
theorem render_singlePass (template : String) (context : Table Datum) :
    ∃ layout : Layout, (∀ other : Layout, other.text = template ↔ other = layout) ∧
      render template context = layout.fill (contextText context) ∧
      (∀ key, context.has key ∨ key ∉ inheritedKeys →
        contextText context key = ownText context key) ∧
      (render template context = layout.fill (ownText context) ↔
        layout.open?.isSome ∨ Textless context layout.slots ∨ Answered context layout.slots) := by
  obtain ⟨layout, hlayout⟩ := exists_layout template.toList
  have htext : layout.text = template := by
    unfold Layout.text
    rw [hlayout, String.ofList_toList]
  have hrender : render template context = layout.fill (contextText context) := by
    rw [← htext]
    exact fill_layout (contextText context) layout
  refine ⟨layout, fun other => ⟨?_, ?_⟩, hrender, fun _ => contextText_eq_ownText, ?_⟩
  · intro hother
    have hchars : String.ofList other.chars = String.ofList layout.chars := hother.trans htext.symm
    exact Layout.chars_injective (String.ofList_injective hchars)
  · rintro rfl
    exact htext
  · rw [hrender]
    exact fill_contextText_iff context layout

/-- A value that looks like a slot stays as it is. -/
theorem render_value_with_braces :
    ∃ layout : Layout, (∀ other : Layout, other.text = "<\x7bname\x7d>\x7b\x7d\x7d" ↔ other = layout) ∧
      (Table.ofList [("name", Datum.string "\x7bname\x7d")]).has "name" = true ∧
      contextText (.ofList [("name", .string "\x7bname\x7d")]) "name" = .ok "\x7bname\x7d" ∧
      render "<\x7bname\x7d>\x7b\x7d\x7d" (.ofList [("name", .string "\x7bname\x7d")]) =
        .ok "<\x7bname\x7d>\x7d" := by
  obtain ⟨layout, hunique, hrender, hheld, hown⟩ := render_singlePass "<\x7bname\x7d>\x7b\x7d\x7d"
    (.ofList [("name", .string "\x7bname\x7d")])
  have hhas : (Table.ofList [("name", Datum.string "\x7bname\x7d")]).has "name" = true := rfl
  have hlayout := (hunique ⟨['<'], [⟨"name".toList, ['>'], by decide, by decide⟩,
    ⟨[], ['\x7d'], by decide, by decide⟩], none, by decide⟩).1 (by rfl)
  refine ⟨layout, hunique, hhas, hheld "name" (.inl hhas), ?_⟩
  rw [hrender, ← hlayout]
  rfl

/-- A context that holds nothing still has a text for the name of an inherited operation. -/
theorem inherited_key_not_empty :
    ownText .empty "toString" = .ok "" ∧
    render "\x7btoString\x7d" .empty = .ok "function toString() \x7b [native code] \x7d" ∧
    render "\x7btoString\x7d" .empty ≠ .ok "" := by
  have hrender : render "\x7btoString\x7d" .empty =
      .ok "function toString() \x7b [native code] \x7d" := by rfl
  refine ⟨rfl, hrender, ?_⟩
  rw [hrender]
  intro h
  exact absurd (Except.ok.inj h) (by decide)

end Lox.Template
