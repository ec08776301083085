import Lox.Token.Piece
import Mathlib.Data.List.TakeWhile

/-!
# The piece at the front of a text

A piece is described by its text and by what may come directly behind it, without a word on how it is
found. Scanning takes the piece that fits this description, and there is no other one: the description
says what the piece is, and that it goes on for as long as it can.

## Contents
- `Stops`: a text that does not go on with a class of characters.
- `Starts`: the characters with which an error of its own begins.
- `Munched`: a piece in front of a text.
- `munched_munch`, `munch_eq_of_munched`: scanning finds it.
- `munch_eq_iff`: both directions.
- `pieces_of_munched`, `exists_munched`: the pieces of a whole text.
- `Munched.separated`, `Munched.of_head?`: a piece in front of another text.
-/

namespace Lox.Piece

open Decimal Token

/-! ## Runs of characters -/

/-- A text does not go on with a character of a class. -/
def Stops (p : Char → Bool) (behind : List Char) : Prop :=
  ∀ c, behind.head? = some c → p c = false

section Runs

variable {p : Char → Bool} {run behind : List Char}

theorem stops_nil : Stops p [] := nofun

theorem stops_cons {c : Char} : Stops p (c :: behind) ↔ p c = false :=
  ⟨fun h => h c rfl, fun h _ heq => Option.some.inj heq ▸ h⟩

theorem stops_dropWhile (p : Char → Bool) (cs : List Char) : Stops p (cs.dropWhile p) := by
  intro c hc
  have hhead := List.head?_dropWhile_not p cs
  rwa [hc] at hhead

theorem takeWhile_of_stops (hrun : ∀ c ∈ run, p c = true) (hbehind : Stops p behind) :
    (run ++ behind).takeWhile p = run := by
  rw [List.takeWhile_append_of_pos hrun]
  cases behind with
  | nil => exact List.append_nil run
  | cons c behind => rw [List.takeWhile_cons_of_neg (by simp [stops_cons.1 hbehind]), List.append_nil]

theorem dropWhile_of_stops (hrun : ∀ c ∈ run, p c = true) (hbehind : Stops p behind) :
    (run ++ behind).dropWhile p = behind := by
  rw [List.dropWhile_append_of_pos hrun]
  cases behind with
  | nil => rfl
  | cons c behind => rw [List.dropWhile_cons_of_neg (by simp [stops_cons.1 hbehind])]

/-- Characters up to the first one of a kind. -/
theorem not_mem_takeWhile_ne (d : Char) (cs : List Char) : d ∉ cs.takeWhile (· != d) := by
  intro hmem
  exact absurd (List.mem_takeWhile_imp hmem) (by simp)

theorem all_ne_of_not_mem {d : Char} {cs : List Char} (h : d ∉ cs) : ∀ c ∈ cs, (c != d) = true := by
  intro c hc
  rw [bne_iff_ne]
  rintro rfl
  exact h hc

theorem cons_append_eq_cons {c d : Char} {cs rest : List Char} :
    c :: cs ++ behind = d :: rest ↔ c = d ∧ cs ++ behind = rest :=
  List.cons_eq_cons

end Runs

/-! ## Pieces and what follows them -/

/-- A character with which no piece begins that is white space, a comment or a token. -/
structure Unrecognized (c : Char) : Prop where
  blank : isBlank c = false
  quote : c ≠ '"'
  digit : isDigit c = false
  word : isWordStart c = false
  operator : singleOperator? c = none

/-- A piece with all that it takes to stand in front of a text. -/
inductive Munched : Piece → List Char → Prop
  | blank {c : Char} {behind : List Char} (hblank : isBlank c = true) :
    Munched ⟨.blank, [c]⟩ behind
  | comment {body behind : List Char} (hbody : '\n' ∉ body) (hbehind : Stops (· != '\n') behind) :
    Munched ⟨.comment, '/' :: '/' :: body⟩ behind
  | string {body behind : List Char} (hbody : '"' ∉ body) :
    Munched ⟨.token .string, '"' :: body ++ ['"']⟩ behind
  | unterminated {body : List Char} (hbody : '"' ∉ body) :
    Munched ⟨.flaw .unterminated, '"' :: body⟩ []
  | integer {digits behind : List Char} (hne : digits ≠ []) (hdigits : ∀ c ∈ digits, isDigit c = true)
    (hbehind : Stops isDigit behind) (hpoint : behind.head? ≠ some '.') :
    Munched ⟨.token .number, digits⟩ behind
  | decimal {whole fraction behind : List Char} (hwhole : whole ≠ [])
    (hdigits : ∀ c ∈ whole, isDigit c = true) (hfraction : fraction ≠ [])
    (hdigits' : ∀ c ∈ fraction, isDigit c = true) (hbehind : Stops isDigit behind) :
    Munched ⟨.token .number, whole ++ '.' :: fraction⟩ behind
  | badNumber {digits behind : List Char} (hne : digits ≠ [])
    (hdigits : ∀ c ∈ digits, isDigit c = true) (hbehind : Stops isDigit behind) :
    Munched ⟨.flaw .badNumber, digits ++ ['.']⟩ behind
  | word {c : Char} {cs behind : List Char} (hstart : isWordStart c = true)
    (hword : ∀ d ∈ cs, isWordChar d = true) (hbehind : Stops isWordChar behind) :
    Munched ⟨.token (wordKind (String.ofList (c :: cs))), c :: cs⟩ behind
  | double {c d : Char} {kind : Kind} {behind : List Char} (hkind : doubleOperator? c d = some kind) :
    Munched ⟨.token kind, [c, d]⟩ behind
  | single {c : Char} {kind : Kind} {behind : List Char} (hkind : singleOperator? c = some kind)
    (hdouble : ∀ d, behind.head? = some d → doubleOperator? c d = none)
    (hslash : c = '/' → behind.head? ≠ some '/') :
    Munched ⟨.token kind, [c]⟩ behind
  | unexpected {c : Char} {behind : List Char} (hc : Unrecognized c) :
    Munched ⟨.flaw .unexpected, [c]⟩ behind

/-! ## What scanning takes -/

theorem munched_string (rest : List Char) : Munched (munchString rest).1 (munchString rest).2 := by
  have hbody := not_mem_takeWhile_ne '"' rest
  unfold munchString
  cases hdrop : rest.dropWhile (· != '"') with
  | nil => exact .unterminated hbody
  | cons quote behind =>
      have hquote : quote = '"' := by
        have hstops := stops_dropWhile (· != '"') rest
        rw [hdrop] at hstops
        simpa using stops_cons.1 hstops
      subst hquote
      exact .string hbody

theorem munched_fraction {whole rest : List Char} (hne : whole ≠ [])
    (hdigits : ∀ c ∈ whole, isDigit c = true) (hrest : Stops isDigit rest) :
    Munched (munchFraction whole rest).1 (munchFraction whole rest).2 := by
  unfold munchFraction
  split
  · rename_i behind
    split
    · rename_i hempty
      refine .badNumber hne hdigits ?_
      -- no digit follows, so nothing was dropped
      have hstops := stops_dropWhile isDigit behind
      have hall := List.takeWhile_append_dropWhile (p := isDigit) (l := behind)
      rw [List.isEmpty_iff.1 hempty, List.nil_append] at hall
      rwa [hall] at hstops
    · rename_i hempty
      refine .decimal hne hdigits (mt List.isEmpty_iff.2 hempty) ?_ (stops_dropWhile _ _)
      exact fun _ => List.mem_takeWhile_imp
  · rename_i hpoint
    refine .integer hne hdigits hrest fun hhead => ?_
    obtain ⟨behind, rfl⟩ := List.head?_eq_some_iff.1 hhead
    exact hpoint behind rfl

theorem munched_number {c : Char} (hc : isDigit c = true) (rest : List Char) :
    Munched (munchNumber c rest).1 (munchNumber c rest).2 := by
  refine munched_fraction (List.cons_ne_nil _ _) ?_ (stops_dropWhile _ _)
  exact List.forall_mem_cons.2 ⟨hc, fun _ => List.mem_takeWhile_imp⟩

theorem munched_word {c : Char} (hc : isWordStart c = true) (rest : List Char) :
    Munched (munchWord c rest).1 (munchWord c rest).2 :=
  .word hc (fun _ => List.mem_takeWhile_imp) (stops_dropWhile _ _)

theorem munched_operator {c : Char} (hblank : isBlank c = false) (hquote : c ≠ '"')
    (hdigit : isDigit c = false) (hword : isWordStart c = false) {rest : List Char}
    (hslash : c = '/' → rest.head? ≠ some '/') :
    Munched (munchOperator c rest).1 (munchOperator c rest).2 := by
  cases rest with
  | nil =>
      unfold munchOperator
      cases hkind : singleOperator? c with
      | some kind => exact .single hkind nofun hslash
      | none => exact .unexpected ⟨hblank, hquote, hdigit, hword, hkind⟩
  | cons d behind =>
      cases hdouble : doubleOperator? c d with
      | some kind =>
          simp only [munchOperator, hdouble]
          exact .double hdouble
      | none =>
          cases hkind : singleOperator? c with
          | some kind =>
              simp only [munchOperator, hdouble, hkind]
              refine .single hkind (fun d' heq => ?_) hslash
              rwa [← Option.some.inj heq]
          | none =>
              simp only [munchOperator, hdouble, hkind]
              exact .unexpected ⟨hblank, hquote, hdigit, hword, hkind⟩

/-- **Scanning takes a piece that is as described.** -/
theorem munched_munch (c : Char) (rest : List Char) : Munched (munch c rest).1 (munch c rest).2 := by
  -- a kind of piece is tried when the ones before it did not apply
  unfold munch
  split
  · exact .blank ‹_›
  rename_i hblank
  split
  · rename_i hcomment
    rw [Bool.and_eq_true, beq_iff_eq, beq_iff_eq] at hcomment
    obtain ⟨rfl, hhead⟩ := hcomment
    obtain ⟨behind, rfl⟩ := List.head?_eq_some_iff.1 hhead
    exact .comment (not_mem_takeWhile_ne '\n' behind) (stops_dropWhile _ behind)
  rename_i hcomment
  split
  · exact munched_string rest
  rename_i hquote
  split
  · exact munched_number ‹_› rest
  rename_i hdigit
  split
  · exact munched_word ‹_› rest
  rename_i hword
  refine munched_operator (by simpa using hblank) (by simpa using hquote) (by simpa using hdigit)
    (by simpa using hword) fun hslash hhead => hcomment ?_
  rw [hslash, hhead]
  rfl

/-! ## What begins with which character -/

theorem isBlank_iff {c : Char} : isBlank c = true ↔ c ∈ [' ', '\t', '\r', '\n'] := by
  unfold isBlank
  simp only [Bool.or_eq_true, beq_iff_eq, List.mem_cons, List.not_mem_nil, or_false, or_assoc]

theorem not_isBlank {p : Char → Bool} (h : [' ', '\t', '\r', '\n'].any p = false) {c : Char}
    (hc : p c = true) : isBlank c = false := by
  by_contra hblank
  have hmem := isBlank_iff.1 (by simpa using hblank)
  exact List.any_eq_false.1 h c hmem hc

/-- A character of a class differs from those that are not in it. -/
theorem ne_of_class {p : Char → Bool} {c d : Char} (hc : p c = true) (hd : p d = false) : c ≠ d := by
  rintro rfl
  exact Bool.false_ne_true (hd.symm.trans hc)

theorem not_isDigit_of_isWordStart {c : Char} (h : isWordStart c = true) : isDigit c = false := by
  by_contra hdigit
  rw [Bool.not_eq_false] at hdigit
  unfold isWordStart at h
  unfold isDigit at hdigit
  simp only [Bool.and_eq_true, Bool.or_eq_true, decide_eq_true_eq, beq_iff_eq, Char.le_def,
    UInt32.le_iff_toNat_le] at h hdigit
  obtain (h | h) | rfl := h
  · exact absurd (h.1.trans hdigit.2) (by decide)
  · exact absurd (h.1.trans hdigit.2) (by decide)
  · exact absurd hdigit.2 (by decide)

/-- The characters of operators and punctuation. -/
def operatorChars : List Char :=
  ['(', ')', '\x7b', '\x7d', ',', '.', '-', '+', ';', '/', '*', '!', '=', '<', '>']

theorem mem_operatorChars {c : Char} {kind : Kind} (h : singleOperator? c = some kind) :
    c ∈ operatorChars := by
  unfold singleOperator? at h
  split at h <;> first | decide | cases h

/-- No character of an operator begins anything else, a comment apart. -/
theorem class_of_operator {c : Char} (h : c ∈ operatorChars) :
    isBlank c = false ∧ c ≠ '"' ∧ isDigit c = false ∧ isWordStart c = false := by
  have hclass : ∀ c ∈ operatorChars,
      (!isBlank c && c != '"' && !isDigit c && !isWordStart c) = true :=
    List.all_eq_true.1 (by decide)
  simpa [and_assoc] using hclass c h

/-- An operator of two characters begins with one of one character. -/
theorem doubleOperator?_eq_some {c d : Char} {kind : Kind} (h : doubleOperator? c d = some kind) :
    (singleOperator? c).isSome ∧ c ≠ '/' ∧ d = '=' := by
  unfold doubleOperator? at h
  split at h <;> first | exact ⟨by decide, by decide, rfl⟩ | cases h

section

variable {c : Char} {rest : List Char}

theorem munch_blank (h : isBlank c = true) : munch c rest = (⟨.blank, [c]⟩, rest) := by
  rw [munch, if_pos h]

theorem munch_quote : munch '"' rest = munchString rest := by
  rw [munch, if_neg (by decide), if_neg (by simp), if_pos (by decide)]

theorem munch_slashes : munch '/' ('/' :: rest) = munchComment '/' ('/' :: rest) := by
  rw [munch, if_neg (by decide), if_pos (by simp)]

theorem munch_digit (h : isDigit c = true) : munch c rest = munchNumber c rest := by
  have hblank := not_isBlank (by decide) h
  have hslash := ne_of_class h (d := '/') (by decide)
  have hquote := ne_of_class h (d := '"') (by decide)
  rw [munch, if_neg (by simp [hblank]), if_neg (by simp [hslash]), if_neg (by simp [hquote]), if_pos h]

theorem munch_wordStart (h : isWordStart c = true) : munch c rest = munchWord c rest := by
  have hblank := not_isBlank (by decide) h
  have hslash := ne_of_class h (d := '/') (by decide)
  have hquote := ne_of_class h (d := '"') (by decide)
  have hdigit := not_isDigit_of_isWordStart h
  rw [munch, if_neg (by simp [hblank]), if_neg (by simp [hslash]), if_neg (by simp [hquote]),
    if_neg (by simp [hdigit]), if_pos h]

theorem munch_operatorLike (hblank : isBlank c = false) (hquote : c ≠ '"')
    (hdigit : isDigit c = false) (hword : isWordStart c = false)
    (hslash : c = '/' → rest.head? ≠ some '/') : munch c rest = munchOperator c rest := by
  rw [munch, if_neg (by simp [hblank]), if_neg (by simpa using hslash), if_neg (by simp [hquote]),
    if_neg (by simp [hdigit]), if_neg (by simp [hword])]

theorem munch_operatorChar (h : c ∈ operatorChars) (hslash : c = '/' → rest.head? ≠ some '/') :
    munch c rest = munchOperator c rest := by
  obtain ⟨hblank, hquote, hdigit, hword⟩ := class_of_operator h
  exact munch_operatorLike hblank hquote hdigit hword hslash

theorem munch_unrecognized (h : Unrecognized c) : munch c rest = (⟨.flaw .unexpected, [c]⟩, rest) := by
  have hdouble (d : Char) : doubleOperator? c d = none := by
    cases hkind : doubleOperator? c d with
    | none => rfl
    | some kind =>
        have hsome := (doubleOperator?_eq_some hkind).1
        rw [h.operator] at hsome
        exact absurd hsome Bool.false_ne_true
  have hslash : c ≠ '/' := by
    rintro rfl
    exact nomatch h.operator
  rw [munch_operatorLike h.blank h.quote h.digit h.word fun heq => absurd heq hslash]
  cases rest with
  | nil => simp only [munchOperator, h.operator]
  | cons d behind => simp only [munchOperator, hdouble, h.operator]

end

/-! ## There is no other piece -/

section

variable {behind : List Char}

theorem munchString_of_not_mem {body : List Char} (hbody : '"' ∉ body) :
    munchString (body ++ '"' :: behind) = (⟨.token .string, '"' :: body ++ ['"']⟩, behind) := by
  have hrun := all_ne_of_not_mem hbody
  have hstops : Stops (· != '"') ('"' :: behind) := stops_cons.2 rfl
  rw [munchString, dropWhile_of_stops hrun hstops, takeWhile_of_stops hrun hstops]

theorem munchString_unterminated {body : List Char} (hbody : '"' ∉ body) :
    munchString body = (⟨.flaw .unterminated, '"' :: body⟩, []) := by
  have hrun := all_ne_of_not_mem hbody
  have htake := takeWhile_of_stops hrun stops_nil
  have hdrop := dropWhile_of_stops hrun stops_nil
  rw [List.append_nil] at htake hdrop
  rw [munchString, hdrop, htake]

theorem munchNumber_of_stops {c : Char} {ds : List Char} (hds : ∀ d ∈ ds, isDigit d = true)
    (hbehind : Stops isDigit behind) :
    munchNumber c (ds ++ behind) = munchFraction (c :: ds) behind := by
  rw [munchNumber, takeWhile_of_stops hds hbehind, dropWhile_of_stops hds hbehind]

theorem munchFraction_decimal {whole fraction : List Char} (hne : fraction ≠ [])
    (hfraction : ∀ d ∈ fraction, isDigit d = true) (hbehind : Stops isDigit behind) :
    munchFraction whole ('.' :: (fraction ++ behind)) =
      (⟨.token .number, whole ++ '.' :: fraction⟩, behind) := by
  rw [munchFraction, takeWhile_of_stops hfraction hbehind, dropWhile_of_stops hfraction hbehind,
    if_neg (mt List.isEmpty_iff.1 hne)]

theorem munchFraction_badNumber {whole : List Char} (hbehind : Stops isDigit behind) :
    munchFraction whole ('.' :: behind) = (⟨.flaw .badNumber, whole ++ ['.']⟩, behind) := by
  have htake : behind.takeWhile isDigit = [] := takeWhile_of_stops (List.forall_mem_nil _) hbehind
  rw [munchFraction, htake]
  rfl

theorem munchComment_of_stops {body : List Char} (hbody : '\n' ∉ body)
    (hbehind : Stops (· != '\n') behind) :
    munchComment '/' ('/' :: body ++ behind) = (⟨.comment, '/' :: '/' :: body⟩, behind) := by
  have hrun : ∀ c ∈ '/' :: body, (c != '\n') = true :=
    List.forall_mem_cons.2 ⟨rfl, all_ne_of_not_mem hbody⟩
  rw [munchComment, takeWhile_of_stops hrun hbehind, dropWhile_of_stops hrun hbehind]

theorem munchWord_of_stops {c : Char} {cs : List Char} (hword : ∀ d ∈ cs, isWordChar d = true)
    (hbehind : Stops isWordChar behind) :
    munchWord c (cs ++ behind) =
      (⟨.token (wordKind (String.ofList (c :: cs))), c :: cs⟩, behind) := by
  rw [munchWord, takeWhile_of_stops hword hbehind, dropWhile_of_stops hword hbehind]

theorem munchOperator_double {c d : Char} {kind : Kind} (hkind : doubleOperator? c d = some kind) :
    munchOperator c (d :: behind) = (⟨.token kind, [c, d]⟩, behind) := by
  simp only [munchOperator, hkind]

theorem munchOperator_single {c : Char} {kind : Kind} (hkind : singleOperator? c = some kind)
    (hdouble : ∀ d, behind.head? = some d → doubleOperator? c d = none) :
    munchOperator c behind = (⟨.token kind, [c]⟩, behind) := by
  cases behind with
  | nil => simp only [munchOperator, hkind]
  | cons d behind => simp only [munchOperator, hdouble d rfl, hkind]

/-- **Scanning takes every piece that is as described.** -/
theorem munch_eq_of_munched {p : Piece} (h : Munched p behind) {c : Char} {rest : List Char}
    (htext : p.text ++ behind = c :: rest) : munch c rest = (p, behind) := by
  -- the first character decides on the kind of piece, and what is behind it on where the piece ends
  cases h with
  | blank hblank =>
      obtain ⟨rfl, rfl⟩ := cons_append_eq_cons.1 htext
      exact munch_blank hblank
  | comment hbody hbehind =>
      obtain ⟨rfl, rfl⟩ := cons_append_eq_cons.1 htext
      exact munch_slashes.trans (munchComment_of_stops hbody hbehind)
  | @string body _ hbody =>
      obtain ⟨rfl, rfl⟩ := cons_append_eq_cons.1 htext
      show munch '"' (body ++ ['"'] ++ behind) = _
      rw [munch_quote, List.append_assoc]
      exact munchString_of_not_mem hbody
  | unterminated hbody =>
      obtain ⟨rfl, rfl⟩ := cons_append_eq_cons.1 htext
      rw [munch_quote, List.append_nil]
      exact munchString_unterminated hbody
  | integer hne hdigits hbehind hpoint =>
      obtain ⟨d, ds, rfl⟩ := List.exists_cons_of_ne_nil hne
      obtain ⟨rfl, rfl⟩ := cons_append_eq_cons.1 htext
      obtain ⟨hd, hds⟩ := List.forall_mem_cons.1 hdigits
      rw [munch_digit hd, munchNumber_of_stops hds hbehind, munchFraction_of_ne _ hpoint]
  | @decimal _ fraction _ hwhole hdigits hfraction hdigits' hbehind =>
      obtain ⟨d, ds, rfl⟩ := List.exists_cons_of_ne_nil hwhole
      obtain ⟨rfl, rfl⟩ := cons_append_eq_cons.1 htext
      obtain ⟨hd, hds⟩ := List.forall_mem_cons.1 hdigits
      have hpoint : Stops isDigit ('.' :: (fraction ++ behind)) := stops_cons.2 (by decide)
      show munch d (ds ++ '.' :: fraction ++ behind) = _
      rw [munch_digit hd, List.append_assoc, List.cons_append, munchNumber_of_stops hds hpoint]
      exact munchFraction_decimal hfraction hdigits' hbehind
  | badNumber hne hdigits hbehind =>
      obtain ⟨d, ds, rfl⟩ := List.exists_cons_of_ne_nil hne
      obtain ⟨rfl, rfl⟩ := cons_append_eq_cons.1 htext
      obtain ⟨hd, hds⟩ := List.forall_mem_cons.1 hdigits
      have hpoint : Stops isDigit ('.' :: ([] ++ behind)) := stops_cons.2 (by decide)
      show munch d (ds ++ ['.'] ++ behind) = _
      rw [munch_digit hd, List.append_assoc, List.cons_append, munchNumber_of_stops hds hpoint]
      exact munchFraction_badNumber hbehind
  | word hstart hword hbehind =>
      obtain ⟨rfl, rfl⟩ := cons_append_eq_cons.1 htext
      rw [munch_wordStart hstart, munchWord_of_stops hword hbehind]
  | double hkind =>
      obtain ⟨rfl, rfl⟩ := cons_append_eq_cons.1 htext
      obtain ⟨hsome, hslash, _⟩ := doubleOperator?_eq_some hkind
      obtain ⟨_, hsingle⟩ := Option.isSome_iff_exists.1 hsome
      rw [munch_operatorChar (mem_operatorChars hsingle) fun heq => absurd heq hslash]
      exact munchOperator_double hkind
  | single hkind hdouble hslash =>
      obtain ⟨rfl, rfl⟩ := cons_append_eq_cons.1 htext
      rw [List.nil_append, munch_operatorChar (mem_operatorChars hkind) hslash]
      exact munchOperator_single hkind hdouble
  | unexpected hc =>
      obtain ⟨rfl, rfl⟩ := cons_append_eq_cons.1 htext
      exact munch_unrecognized hc

theorem Munched.text_ne_nil {p : Piece} (h : Munched p behind) : p.text ≠ [] := by
  cases h with
  | integer hne => exact hne
  | decimal | badNumber => exact List.append_ne_nil_of_right_ne_nil _ (List.cons_ne_nil _ _)
  | _ => exact List.cons_ne_nil _ _

/-- The first piece of a text, and then the pieces of what follows. -/
theorem pieces_of_munched {p : Piece} (h : Munched p behind) :
    pieces (p.text ++ behind) = p :: pieces behind := by
  obtain ⟨c, cs, htext⟩ := List.exists_cons_of_ne_nil h.text_ne_nil
  have hall : p.text ++ behind = c :: (cs ++ behind) := by rw [htext]; rfl
  rw [hall, pieces_cons, munch_eq_of_munched h hall]

/-- All pieces of a text are as described. -/
theorem exists_munched {cs : List Char} {p : Piece} (h : p ∈ pieces cs) :
    ∃ behind, Munched p behind := by
  fun_induction pieces cs with
  | case1 => exact absurd h List.not_mem_nil
  | case2 c rest ih =>
      rcases List.mem_cons.1 h with rfl | hmem
      · exact ⟨_, munched_munch c rest⟩
      · exact ih hmem

/-- **The piece at the front of a text** is the only one that is as described. -/
theorem munch_eq_iff {c : Char} {rest : List Char} {p : Piece} :
    munch c rest = (p, behind) ↔ Munched p behind ∧ p.text ++ behind = c :: rest := by
  constructor
  · intro h
    have hmunched := munched_munch c rest
    have htext := munch_text_append c rest
    rw [h] at hmunched htext
    exact ⟨hmunched, htext⟩
  · exact fun ⟨hmunched, htext⟩ => munch_eq_of_munched hmunched htext

end

/-! ## Another text behind a piece -/

section

variable {behind after : List Char}

/-- No token goes on with the character. -/
structure Separates (c : Char) : Prop where
  digit : isDigit c = false
  word : isWordChar c = false
  operator : c ∉ ['.', '=', '/']

theorem separates_space : Separates ' ' := ⟨by decide, by decide, by decide⟩

theorem separates_semicolon : Separates ';' := ⟨by decide, by decide, by decide⟩

theorem Separates.doubleOperator? {c d : Char} (h : Separates d) : doubleOperator? c d = none := by
  cases hkind : Token.doubleOperator? c d with
  | none => rfl
  | some kind =>
      obtain ⟨_, _, rfl⟩ := doubleOperator?_eq_some hkind
      exact absurd (by decide) h.operator

/-- **A token ends in front of a separator**, whatever followed it before. -/
theorem Munched.separated {kind : Kind} {text : List Char} (h : Munched ⟨.token kind, text⟩ behind)
    (hafter : ∀ c, after.head? = some c → Separates c) : Munched ⟨.token kind, text⟩ after := by
  have hdigits : Stops isDigit after := fun c hc => (hafter c hc).digit
  have hne {c : Char} (hc : c ∈ ['.', '=', '/']) : after.head? ≠ some c :=
    fun heq => (hafter c heq).operator hc
  cases h with
  | string hbody => exact .string hbody
  | integer hne' hdigits' _ _ => exact .integer hne' hdigits' hdigits (hne (by decide))
  | decimal hwhole hdigits' hfraction hdigits'' _ =>
      exact .decimal hwhole hdigits' hfraction hdigits'' hdigits
  | word hstart hword _ => exact .word hstart hword fun c hc => (hafter c hc).word
  | double hkind => exact .double hkind
  | single hkind _ _ =>
      exact .single hkind (fun d hd => (hafter d hd).doubleOperator?) fun _ => hne (by decide)

/-- Of what follows a piece, only the first character matters. -/
theorem Munched.of_head? {p : Piece} (h : Munched p behind) (hhead : after.head? = behind.head?) :
    Munched p after := by
  have hstops {q : Char → Bool} (hbehind : Stops q behind) : Stops q after := by
    unfold Stops
    rwa [hhead]
  cases h with
  | blank hblank => exact .blank hblank
  | comment hbody hbehind => exact .comment hbody (hstops hbehind)
  | string hbody => exact .string hbody
  | unterminated hbody =>
      rw [List.head?_eq_none_iff.1 hhead]
      exact .unterminated hbody
  | integer hne hdigits hbehind hpoint =>
      exact .integer hne hdigits (hstops hbehind) (hhead ▸ hpoint)
  | decimal hwhole hdigits hfraction hdigits' hbehind =>
      exact .decimal hwhole hdigits hfraction hdigits' (hstops hbehind)
  | badNumber hne hdigits hbehind => exact .badNumber hne hdigits (hstops hbehind)
  | word hstart hword hbehind => exact .word hstart hword (hstops hbehind)
  | double hkind => exact .double hkind
  | single hkind hdouble hslash =>
      rw [← hhead] at hdouble hslash
      exact .single hkind hdouble hslash
  | unexpected hc => exact .unexpected hc

end

end Lox.Piece
