import Lox.Proofs.Scanning.Munching
import Lox.Token.Scan

/-!
# Regions of a source text

A region is a stretch of the units of a source text, with what it is: a token, white space or a comment,
or what an error is about. Regions are stretches of units and not of characters, since a character
outside the basic plane is two errors. For each kind of region it is said what its units are and what
may follow them.

## Contents
- `Region`, `Region.units`, `Region.NotBefore`: stretches of a text, and what follows them.
- `IsTrivia`, `IsToken`, `IsError`, `Region.Fits`: the regions of a source text.
- `Tiles`, `Tiles.existsUnique`: regions without gaps.
- `eq_of_mem_units`: characters and their units.
- `Region.Spans`: regions that are texts of characters.
-/

namespace Lox.Scanning

open Token Piece

/-! ## Regions -/

/-- What a region of a source text is. -/
inductive Role
  | trivia
  | token (t : Token)
  | error (e : LexicalError)

/-- The units of a source text from one offset up to another. -/
structure Region where
  start : Nat
  stop : Nat
  role : Role

namespace Region

/-- The token that a region is. -/
def token? (r : Region) : Option Token :=
  match r.role with
  | .token t => some t
  | _ => none

/-- The error that is about a region. -/
def error? (r : Region) : Option LexicalError :=
  match r.role with
  | .error e => some e
  | _ => none

/-- The units of a region. -/
def units (r : Region) (source : List Nat) : List Nat := (source.drop r.start).take (r.stop - r.start)

/-- A region that no character of a class follows. -/
def NotBefore (r : Region) (source : List Nat) (p : Char → Bool) : Prop :=
  ∀ c, p c = true → source[r.stop]? ≠ some c.toNat

end Region

/-- Regions from one offset up to another, none of them empty and each one beginning where the one in
front of it ends. -/
def Tiles : Nat → Nat → List Region → Prop
  | lo, hi, [] => lo = hi
  | lo, hi, r :: rs => r.start = lo ∧ r.start < r.stop ∧ Tiles r.stop hi rs

/-- A white-space character, or a comment up to but not including the line feed. -/
def IsTrivia (source : List Nat) (r : Region) : Prop :=
  (∃ c, isBlank c = true ∧ r.units source = [c.toNat]) ∨
    ∃ body, r.units source = '/'.toNat :: '/'.toNat :: body ∧ '\n'.toNat ∉ body ∧
      ∀ u, source[r.stop]? = some u → u = '\n'.toNat

/-- The kinds of words: identifiers and keywords. -/
def wordKinds : List Kind := .identifier :: keywords.map Prod.snd

/-- A text that is a word. -/
def IsWord (text : List Char) : Prop :=
  ∃ c cs, text = c :: cs ∧ isWordStart c = true ∧ ∀ d ∈ cs, isWordChar d = true

/-- A token with its lexeme, which cannot go on. -/
structure IsToken (source : List Nat) (r : Region) (t : Token) : Prop where
  start : t.span.start.offset = r.start
  stop : t.span.stop.offset = r.stop
  lexeme : r.units source = Text.toUnits t.lexeme
  /-- Neither an identifier nor a keyword is followed by a character of a word. -/
  word : t.kind ∈ wordKinds → r.NotBefore source isWordChar
  number : t.kind = .number → r.NotBefore source Decimal.isDigit
  integer : t.kind = .number → '.' ∉ t.lexeme.toList → r.NotBefore source (· == '.')
  operator : t.lexeme ∈ ["!", "=", "<", ">"] → r.NotBefore source (· == '=')
  slash : t.lexeme = "/" → r.NotBefore source (· == '/')
  /-- A word is the keyword that it spells, or else an identifier. -/
  keyword : IsWord t.lexeme.toList →
    ∀ kind, kind ≠ .identifier → (t.kind = kind ↔ (t.lexeme, kind) ∈ keywords)

/-- What an error is about: one unit with which nothing else begins, digits with a point that no digit
follows, or an open string up to the end. -/
def IsError (source : List Nat) (r : Region) (e : LexicalError) : Prop :=
  e.location.offset = r.start ∧
    match e.cause with
    | .unexpected u => r.units source = [u] ∧ ∀ c : Char, c.toNat = u → Unrecognized c
    | .badNumber lexeme => r.units source = Text.toUnits lexeme ∧
        (∃ digits, digits ≠ [] ∧ (∀ c ∈ digits, Decimal.isDigit c = true) ∧
          lexeme.toList = digits ++ ['.']) ∧
        r.NotBefore source Decimal.isDigit
    | .unterminated => ∃ body, r.units source = '"'.toNat :: body ∧ '"'.toNat ∉ body ∧
        r.stop = source.length

/-- A region is what its role says. -/
def Region.Fits (source : List Nat) (r : Region) : Prop :=
  match r.role with
  | .trivia => IsTrivia source r
  | .token t => IsToken source r t
  | .error e => IsError source r e

namespace Region.Fits

variable {source : List Nat} {r : Region}

theorem isToken (h : r.Fits source) {t : Token} (ht : r.token? = some t) : IsToken source r t := by
  obtain ⟨start, stop, role⟩ := r
  cases role with
  | trivia | error => exact nomatch ht
  | token t' => exact Option.some.inj ht ▸ h

theorem isError (h : r.Fits source) {e : LexicalError} (he : r.error? = some e) :
    IsError source r e := by
  obtain ⟨start, stop, role⟩ := r
  cases role with
  | trivia | token => exact nomatch he
  | error e' => exact Option.some.inj he ▸ h

end Region.Fits

/-! ## Tilings -/

namespace Tiles

variable {lo mid hi : Nat} {r : Region} {rs rs' : List Region}

theorem single (hstart : r.start = lo) (hlt : r.start < r.stop) (hstop : r.stop = hi) :
    Tiles lo hi [r] :=
  ⟨hstart, hlt, hstop⟩

theorem append : {lo : Nat} → {rs : List Region} → Tiles lo mid rs → Tiles mid hi rs' →
    Tiles lo hi (rs ++ rs')
  | _, [], rfl, h => h
  | _, _ :: _, ⟨hstart, hlt, hrest⟩, h => ⟨hstart, hlt, hrest.append h⟩

theorem le_start : {lo : Nat} → {rs : List Region} → Tiles lo hi rs → ∀ r ∈ rs, lo ≤ r.start
  | _, [], _, _, hr => absurd hr List.not_mem_nil
  | _, _ :: _, ⟨hstart, hlt, hrest⟩, r, hr => by
    rcases List.mem_cons.1 hr with rfl | hmem
    · exact hstart.ge
    · have hle := hrest.le_start r hmem
      omega

/-- Regions come one behind the other. -/
theorem pairwise : {lo : Nat} → {rs : List Region} → Tiles lo hi rs →
    rs.Pairwise fun r r' => r.start < r.stop ∧ r.stop ≤ r'.start
  | _, [], _ => .nil
  | _, _ :: _, ⟨_, hlt, hrest⟩ => .cons (fun r hr => ⟨hlt, hrest.le_start r hr⟩) hrest.pairwise

/-- **Every offset lies in one region.** -/
theorem existsUnique : {lo : Nat} → {rs : List Region} → Tiles lo hi rs → ∀ k, lo ≤ k → k < hi →
    ∃! r, r ∈ rs ∧ r.start ≤ k ∧ k < r.stop
  | _, [], hend, k, hle, hlt => absurd hlt (by rw [← show _ = hi from hend]; omega)
  | _, r :: rs, ⟨hstart, hnonempty, hrest⟩, k, hle, hlt => by
    by_cases hk : k < r.stop
    · refine ⟨r, ⟨List.mem_cons_self, by omega, hk⟩, ?_⟩
      rintro r' ⟨hmem, hle', -⟩
      rcases List.mem_cons.1 hmem with rfl | hmem
      · rfl
      · have hbehind := hrest.le_start r' hmem
        omega
    · obtain ⟨r', ⟨hmem, hin⟩, hunique⟩ := hrest.existsUnique k (by omega) hlt
      refine ⟨r', ⟨List.mem_cons_of_mem r hmem, hin⟩, ?_⟩
      rintro r'' ⟨hmem', hin'⟩
      rcases List.mem_cons.1 hmem' with rfl | hmem'
      · omega
      · exact hunique r'' ⟨hmem', hin'⟩

end Tiles

/-! ## Characters and their units -/

theorem length_flatMap_units (cs : List Char) : (cs.flatMap Text.units).length = Text.width cs := by
  induction cs with
  | nil => rfl
  | cons c cs ih => rw [List.flatMap_cons, List.length_append, ih, Text.length_units, Text.width_cons]

/-- A unit on its own is no half of another character. -/
theorem eq_of_mem_units {c d : Char} (h : d.toNat ∈ Text.units c) : d = c := by
  have hd : d.toNat < 0xD800 ∨ 0xDFFF < d.toNat ∧ d.toNat < 0x110000 := d.valid
  have hc : c.toNat < 0xD800 ∨ 0xDFFF < c.toNat ∧ c.toNat < 0x110000 := c.valid
  unfold Text.units at h
  split at h
  · exact Char.toNat_inj.1 (List.mem_singleton.1 h)
  · simp only [List.mem_cons, List.not_mem_nil, or_false] at h
    omega

theorem mem_of_mem_units {d : Char} {cs : List Char} (h : d.toNat ∈ cs.flatMap Text.units) :
    d ∈ cs := by
  obtain ⟨c, hc, hmem⟩ := List.mem_flatMap.1 h
  rwa [eq_of_mem_units hmem]

theorem mem_head_units {cs : List Char} {u : Nat} (h : (cs.flatMap Text.units).head? = some u) :
    ∃ c, cs.head? = some c ∧ u ∈ Text.units c := by
  cases cs with
  | nil => exact nomatch h
  | cons c cs =>
      refine ⟨c, rfl, ?_⟩
      have hlength := Text.unitCount_pos c
      rw [← Text.length_units] at hlength
      obtain ⟨u', us, hunits⟩ := List.exists_cons_of_length_pos hlength
      rw [List.flatMap_cons, hunits] at h
      cases Option.some.inj h
      rw [hunits]
      exact List.mem_cons_self

theorem width_pos {cs : List Char} (h : cs ≠ []) : 0 < Text.width cs := by
  obtain ⟨c, cs, rfl⟩ := List.exists_cons_of_ne_nil h
  have hcount := Text.unitCount_pos c
  rw [Text.width_cons]
  omega

/-! ## Stretches of characters -/

/-- A region is the stretch of a source that comes behind another one. -/
structure Region.Spans (r : Region) (before text : List Char) : Prop where
  start : r.start = Text.width before
  stop : r.stop = Text.width before + Text.width text

section

variable {before text behind : List Char} {r : Region}

theorem drop_width (before text behind : List Char) :
    ((before ++ text ++ behind).flatMap Text.units).drop (Text.width before) =
      text.flatMap Text.units ++ behind.flatMap Text.units := by
  rw [← length_flatMap_units before, List.flatMap_append, List.flatMap_append, List.append_assoc,
    List.drop_left]

theorem Region.Spans.units (h : r.Spans before text) :
    r.units ((before ++ text ++ behind).flatMap Text.units) = text.flatMap Text.units := by
  unfold Region.units
  rw [h.start, h.stop, Nat.add_sub_cancel_left, drop_width, ← length_flatMap_units text,
    List.take_left]

theorem Region.Spans.next (h : r.Spans before text) :
    ((before ++ text ++ behind).flatMap Text.units)[r.stop]? =
      (behind.flatMap Text.units).head? := by
  have hlength : r.stop = ((before ++ text).flatMap Text.units).length := by
    rw [h.stop, length_flatMap_units, Text.width_append]
  rw [List.flatMap_append, hlength, List.getElem?_append_right Nat.le.refl, Nat.sub_self,
    List.head?_eq_getElem?]

theorem Region.Spans.notBefore (h : r.Spans before text) {p : Char → Bool} (hp : Stops p behind) :
    r.NotBefore ((before ++ text ++ behind).flatMap Text.units) p := by
  intro c hc hnext
  rw [h.next] at hnext
  obtain ⟨d, hd, hmem⟩ := mem_head_units hnext
  rw [eq_of_mem_units hmem] at hc
  exact Bool.false_ne_true ((hp d hd).symm.trans hc)

end

end Lox.Scanning
