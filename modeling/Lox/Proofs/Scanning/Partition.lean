import Lox.Proofs.Scanning.Pieces
import Lox.Proofs.Scanning.Regions
import Lox.Table
import Mathlib.Data.List.Basic

/-!
# The source is partitioned

Scanning leaves nothing of a source text out and takes nothing twice: every unit of the text lies in one
region. The regions of a text are those of its pieces, and a piece is a region of its own unless it is a
character that begins nothing, which is reported unit by unit.

No region could be longer. What follows a token was known when its piece was cut off, and does not
depend on where the piece stands.

## Contents
- `stops_of_word`, `stops_of_number`, `stops_of_operator`: what follows a token.
- `kind_of_isWord`: keywords and identifiers.
- `regionsOf`, `tiles_regionsOf`, `fits_regionsOf`: the regions of a piece.
- `Scan.listing`: the rows of a token listing.
- `scan_partitions`: the regions of a scan.
-/

namespace Lox

open Token

namespace Scanning

open Piece

/-! ## What follows a token -/

section

variable {kind : Kind} {text behind : List Char}

theorem singleOperator?_kind {c : Char} (h : singleOperator? c = some kind) :
    kind ∉ wordKinds ∧ kind ≠ .number := by
  unfold singleOperator? at h
  split at h <;> first | exact Option.some.inj h ▸ by decide | cases h

theorem doubleOperator?_kind {c d : Char} (h : doubleOperator? c d = some kind) :
    kind ∉ wordKinds ∧ kind ≠ .number := by
  unfold doubleOperator? at h
  split at h <;> first | exact Option.some.inj h ▸ by decide | cases h

theorem wordKind_eq_iff {word : String} (hkind : kind ≠ .identifier) :
    wordKind word = kind ↔ (word, kind) ∈ keywords := by
  have hnodup : (keywords.map Prod.fst).Nodup := by decide
  rw [← lookup_eq_some_iff_mem hnodup, wordKind]
  cases keywords.lookup word with
  | none => exact ⟨fun h => absurd h.symm hkind, nofun⟩
  | some kind' => exact (Option.some_inj (a := kind')).symm

theorem wordKind_mem (word : String) : wordKind word ∈ wordKinds := by
  by_cases hkind : wordKind word = .identifier
  · rw [hkind]
    exact List.mem_cons_self
  · have hmem := (wordKind_eq_iff hkind).1 rfl
    exact List.mem_cons_of_mem _ (List.mem_map_of_mem hmem)

theorem stops_of_word (h : Munched ⟨.token kind, text⟩ behind) (hkind : kind ∈ wordKinds) :
    Stops isWordChar behind := by
  cases h with
  | string => exact absurd hkind (by decide)
  | integer | decimal => exact absurd hkind (by decide)
  | word _ _ hbehind => exact hbehind
  | double hdouble => exact absurd hkind (doubleOperator?_kind hdouble).1
  | single hsingle => exact absurd hkind (singleOperator?_kind hsingle).1

theorem stops_of_number (h : Munched ⟨.token kind, text⟩ behind) (hkind : kind = .number) :
    Stops Decimal.isDigit behind := by
  cases h with
  | string => exact nomatch hkind
  | integer _ _ hbehind => exact hbehind
  | decimal _ _ _ _ hbehind => exact hbehind
  | word => exact absurd (hkind ▸ wordKind_mem _) (by decide)
  | double hdouble => exact absurd hkind (doubleOperator?_kind hdouble).2
  | single hsingle => exact absurd hkind (singleOperator?_kind hsingle).2

theorem stops_of_integer (h : Munched ⟨.token kind, text⟩ behind) (hkind : kind = .number)
    (htext : '.' ∉ text) : Stops (· == '.') behind := by
  cases h with
  | string => exact nomatch hkind
  | integer _ _ _ hpoint =>
      intro c hc
      rw [beq_eq_false_iff_ne]
      rintro rfl
      exact hpoint hc
  | decimal => exact absurd (List.mem_append_right _ List.mem_cons_self) htext
  | word => exact absurd (hkind ▸ wordKind_mem _) (by decide)
  | double hdouble => exact absurd hkind (doubleOperator?_kind hdouble).2
  | single hsingle => exact absurd hkind (singleOperator?_kind hsingle).2

/-- An operator of one character is neither part of a longer one nor of a comment. -/
theorem stops_of_operator {c : Char} (h : Munched ⟨.token kind, text⟩ behind) (htext : text = [c])
    (hc : c ∈ operatorChars) : (∀ d, behind.head? = some d → doubleOperator? c d = none) ∧
      (c = '/' → behind.head? ≠ some '/') := by
  obtain ⟨_, _, hdigit, hword⟩ := class_of_operator hc
  cases h with
  | string => exact absurd (congrArg List.length htext) (by simp)
  | integer _ hdigits =>
      subst htext
      exact absurd (hdigits c List.mem_cons_self) (by simp [hdigit])
  | decimal hwhole =>
      have hlength := List.length_pos_iff.2 hwhole
      have htotal := congrArg List.length htext
      rw [List.length_append, List.length_cons, List.length_singleton] at htotal
      omega
  | word hstart =>
      rw [(List.cons.inj htext).1] at hstart
      exact absurd hstart (by simp [hword])
  | double => exact absurd (congrArg List.length htext) (by simp)
  | single _ hdouble hslash =>
      rw [(List.cons.inj htext).1] at hdouble hslash
      exact ⟨hdouble, hslash⟩

/-- A token that is a word is the keyword that it spells, or else an identifier. -/
theorem kind_of_isWord (h : Munched ⟨.token kind, text⟩ behind) (hword : IsWord text) {kind' : Kind}
    (hkind' : kind' ≠ .identifier) : kind = kind' ↔ (String.ofList text, kind') ∈ keywords := by
  obtain ⟨c, cs, rfl, hc, _⟩ := hword
  have hdigit := not_isDigit_of_isWordStart hc
  generalize htext : c :: cs = text at h
  cases h with
  | string =>
      rw [(List.cons.inj htext).1] at hc
      exact absurd hc (by decide)
  | integer _ hdigits =>
      exact absurd (hdigits c (htext ▸ List.mem_cons_self)) (by simp [hdigit])
  | decimal hwhole hdigits =>
      obtain ⟨d, ds, rfl⟩ := List.exists_cons_of_ne_nil hwhole
      rw [(List.cons.inj htext).1] at hdigit
      exact absurd (hdigits d List.mem_cons_self) (by simp [hdigit])
  | word => exact wordKind_eq_iff hkind'
  | double hdouble =>
      obtain ⟨_, hsingle⟩ := Option.isSome_iff_exists.1 (doubleOperator?_eq_some hdouble).1
      rw [(List.cons.inj htext).1] at hc
      exact absurd hc (by simp [class_of_operator (mem_operatorChars hsingle)])
  | single hsingle =>
      rw [(List.cons.inj htext).1] at hc
      exact absurd hc (by simp [class_of_operator (mem_operatorChars hsingle)])

end

/-! ## The regions of a piece -/

/-- The regions of a piece that stands at `l`. -/
def regionsOf (l : Location) (p : Piece) : List Region :=
  match p.shape with
  | .blank | .comment => [⟨l.offset, (l.after p.text).offset, .trivia⟩]
  | .token kind =>
    [⟨l.offset, (l.after p.text).offset, .token ⟨kind, String.ofList p.text, ⟨l, l.after p.text⟩⟩⟩]
  | .flaw .unexpected =>
    (p.errors l).map fun e => ⟨e.location.offset, e.location.offset + 1, .error e⟩
  | .flaw _ => (p.errors l).map fun e => ⟨l.offset, (l.after p.text).offset, .error e⟩

theorem token?_regionsOf (l : Location) (p : Piece) :
    (regionsOf l p).filterMap Region.token? = (p.token? l).toList := by
  obtain ⟨shape, text⟩ := p
  cases shape with
  | blank | comment | token => rfl
  | flaw flaw =>
      cases flaw <;>
        exact List.filterMap_map.trans (List.filterMap_eq_nil_iff.2 fun _ _ => rfl)

theorem error?_regionsOf (l : Location) (p : Piece) :
    (regionsOf l p).filterMap Region.error? = p.errors l := by
  obtain ⟨shape, text⟩ := p
  cases shape with
  | blank | comment | token => rfl
  | flaw flaw => cases flaw <;> exact List.filterMap_map.trans List.filterMap_some

theorem tiles_unexpected (us : List Nat) (l : Location) :
    Tiles l.offset (l.offset + us.length) ((unexpectedUnits l us).map fun e =>
      ⟨e.location.offset, e.location.offset + 1, .error e⟩) := by
  induction us generalizing l with
  | nil => rfl
  | cons u us ih =>
      refine ⟨rfl, Nat.lt_succ_self _, ?_⟩
      have hrest := ih ⟨l.line, l.column + 1, l.offset + 1⟩
      rwa [Nat.add_right_comm, Nat.add_assoc] at hrest

/-- The regions of a piece make up its text. -/
theorem tiles_regionsOf {p : Piece} (l : Location) (htext : p.text ≠ []) :
    Tiles l.offset (l.after p.text).offset (regionsOf l p) := by
  have hwidth := width_pos htext
  have hlt : l.offset < (l.after p.text).offset := by
    rw [Location.offset_after]
    omega
  obtain ⟨shape, text⟩ := p
  cases shape with
  | blank | comment | token => exact .single rfl hlt rfl
  | flaw flaw =>
      cases flaw with
      | unterminated | badNumber => exact .single rfl hlt rfl
      | unexpected =>
          rw [Location.offset_after, ← length_flatMap_units]
          exact tiles_unexpected _ l

/-! ## A piece in its source -/

section

variable {before text behind : List Char} {r : Region}


/-- The operators that may go on. -/
theorem operator_of_lexeme {lexeme : String} (h : lexeme ∈ ["!", "=", "<", ">"]) :
    ∃ c ∈ operatorChars, (doubleOperator? c '=').isSome ∧ lexeme.toList = [c] := by
  simp only [List.mem_cons, List.not_mem_nil, or_false] at h
  rcases h with rfl | rfl | rfl | rfl
  · exact ⟨'!', by decide, rfl, rfl⟩
  · exact ⟨'=', by decide, rfl, rfl⟩
  · exact ⟨'<', by decide, rfl, rfl⟩
  · exact ⟨'>', by decide, rfl, rfl⟩

theorem isToken_of_munched {kind : Kind} {l : Location} (h : Munched ⟨.token kind, text⟩ behind)
    (hr : r.Spans before text) (hl : l.offset = r.start) :
    IsToken ((before ++ text ++ behind).flatMap Text.units) r
      ⟨kind, String.ofList text, ⟨l, l.after text⟩⟩ where
  start := hl
  stop := by
    rw [Location.offset_after, hl, hr.start, hr.stop]
  lexeme := by
    rw [hr.units, Text.toUnits, String.toList_ofList]
  word hkind := hr.notBefore (stops_of_word h hkind)
  number hkind := hr.notBefore (stops_of_number h hkind)
  integer hkind htext := by
    rw [String.toList_ofList] at htext
    exact hr.notBefore (stops_of_integer h hkind htext)
  operator hlexeme := by
    refine hr.notBefore fun d hd => ?_
    -- with an equals sign behind it, it would be an operator of two characters
    obtain ⟨c, hc, hdouble, htext⟩ := operator_of_lexeme hlexeme
    rw [String.toList_ofList] at htext
    rw [beq_eq_false_iff_ne]
    rintro rfl
    rw [(stops_of_operator h htext hc).1 '=' hd] at hdouble
    exact Bool.false_ne_true hdouble
  slash hlexeme := by
    refine hr.notBefore fun d hd => ?_
    have htext : text = ['/'] := String.toList_ofList.symm.trans (congrArg String.toList hlexeme)
    have hstops := (stops_of_operator h htext (by decide)).2 rfl
    rw [beq_eq_false_iff_ne]
    rintro rfl
    exact hstops hd
  keyword hword kind' hkind' := by
    rw [String.toList_ofList] at hword
    exact kind_of_isWord h hword hkind'

theorem isTrivia_of_blank {c : Char} (hc : isBlank c = true) (hr : r.Spans before [c]) :
    IsTrivia ((before ++ [c] ++ behind).flatMap Text.units) r := by
  refine .inl ⟨c, hc, ?_⟩
  have hunits : ∀ c ∈ [' ', '\t', '\r', '\n'], ([c].flatMap Text.units == [c.toNat]) = true :=
    List.all_eq_true.1 (by decide)
  rw [hr.units, eq_of_beq (hunits c (isBlank_iff.1 hc))]

theorem isTrivia_of_comment {body : List Char} (hbody : '\n' ∉ body)
    (hbehind : Stops (· != '\n') behind) (hr : r.Spans before ('/' :: '/' :: body)) :
    IsTrivia ((before ++ '/' :: '/' :: body ++ behind).flatMap Text.units) r := by
  refine .inr ⟨body.flatMap Text.units, hr.units, mt mem_of_mem_units hbody, fun u hu => ?_⟩
  rw [hr.next] at hu
  obtain ⟨c, hc, hmem⟩ := mem_head_units hu
  have hline : c = '\n' := by simpa using hbehind c hc
  subst hline
  exact List.mem_singleton.1 hmem

theorem isError_of_unterminated {body : List Char} {l : Location} (hbody : '"' ∉ body)
    (hr : r.Spans before ('"' :: body)) (hl : l.offset = r.start) :
    IsError ((before ++ '"' :: body ++ []).flatMap Text.units) r ⟨.unterminated, l⟩ := by
  refine ⟨hl, body.flatMap Text.units, hr.units, mt mem_of_mem_units hbody, ?_⟩
  rw [hr.stop, length_flatMap_units, List.append_nil, Text.width_append]

theorem isError_of_badNumber {digits : List Char} {l : Location} (hne : digits ≠ [])
    (hdigits : ∀ c ∈ digits, Decimal.isDigit c = true) (hbehind : Stops Decimal.isDigit behind)
    (hr : r.Spans before (digits ++ ['.'])) (hl : l.offset = r.start) :
    IsError ((before ++ (digits ++ ['.']) ++ behind).flatMap Text.units) r
      ⟨.badNumber (String.ofList (digits ++ ['.'])), l⟩ := by
  refine ⟨hl, ?_, ⟨digits, hne, hdigits, String.toList_ofList⟩, hr.notBefore hbehind⟩
  rw [hr.units, Text.toUnits, String.toList_ofList]

end

/-- The units of a character that begins nothing are errors, one by one. -/
theorem fits_unexpected (source : List Nat) (us : List Nat)
    (hus : ∀ u ∈ us, ∀ c : Char, c.toNat = u → Unrecognized c) (l : Location)
    (hsource : us <+: source.drop l.offset) :
    ∀ e ∈ unexpectedUnits l us,
      IsError source ⟨e.location.offset, e.location.offset + 1, .error e⟩ e := by
  induction us generalizing l with
  | nil => exact fun _ he => absurd he List.not_mem_nil
  | cons u us ih =>
      obtain ⟨rest, hrest⟩ := hsource
      obtain ⟨hu, hus⟩ := List.forall_mem_cons.1 hus
      refine List.forall_mem_cons.2 ⟨⟨rfl, ?_, hu⟩, ?_⟩
      · show (source.drop l.offset).take (l.offset + 1 - l.offset) = [u]
        rw [← hrest, Nat.add_sub_cancel_left]
        rfl
      · refine ih hus ⟨l.line, l.column + 1, l.offset + 1⟩ ⟨rest, ?_⟩
        show us ++ rest = source.drop (l.offset + 1)
        rw [← List.drop_drop, ← hrest]
        rfl

/-- The regions of a piece are what they should be, wherever it stands in a source. -/
theorem fits_regionsOf {before behind : List Char} {p : Piece} (h : Munched p behind) {l : Location}
    (hl : l.offset = Text.width before) :
    ∀ r ∈ regionsOf l p, r.Fits ((before ++ p.text ++ behind).flatMap Text.units) := by
  have hspans (role : Role) : Region.Spans ⟨l.offset, (l.after p.text).offset, role⟩ before p.text :=
    ⟨hl, by rw [Location.offset_after, hl]⟩
  intro r hr
  obtain ⟨shape, text⟩ := p
  cases shape with
  | token kind =>
      rw [List.mem_singleton.1 hr]
      exact isToken_of_munched h (hspans _) rfl
  | blank =>
      rw [List.mem_singleton.1 hr]
      cases h with
      | blank hblank => exact isTrivia_of_blank hblank (hspans _)
  | comment =>
      rw [List.mem_singleton.1 hr]
      cases h with
      | comment hbody hbehind => exact isTrivia_of_comment hbody hbehind (hspans _)
  | flaw flaw =>
      cases h with
      | unterminated hbody =>
          rw [List.mem_singleton.1 hr]
          exact isError_of_unterminated hbody (hspans _) rfl
      | badNumber hne hdigits hbehind =>
          rw [List.mem_singleton.1 hr]
          exact isError_of_badNumber hne hdigits hbehind (hspans _) rfl
      | @unexpected c _ hc =>
          obtain ⟨e, he, rfl⟩ := List.mem_map.1 hr
          refine fits_unexpected _ _ (fun u hu d hd => ?_) l ?_ e he
          · subst hd
            rwa [List.mem_singleton.1 (mem_of_mem_units hu)]
          · rw [hl, drop_width]
            exact List.prefix_append _ _

/-! ## The whole source -/

theorem tiles_locate (l : Location) {ps : List Piece} (htext : ∀ p ∈ ps, p.text ≠ []) :
    Tiles l.offset (l.after (ps.flatMap text)).offset
      ((locate l ps).flatMap fun (l, p) => regionsOf l p) := by
  induction ps generalizing l with
  | nil => rfl
  | cons p ps ih =>
      obtain ⟨hp, hps⟩ := List.forall_mem_cons.1 htext
      rw [List.flatMap_cons, Location.after_append]
      exact (tiles_regionsOf l hp).append (ih (l.after p.text) hps)

theorem fits_locate (before cs : List Char) :
    ∀ r ∈ (locate (Location.start.after before) (pieces cs)).flatMap fun (l, p) => regionsOf l p,
      r.Fits ((before ++ cs).flatMap Text.units) := by
  fun_induction pieces cs generalizing before with
  | case1 => exact fun _ hr => absurd hr List.not_mem_nil
  | case2 c rest ih =>
      have htext := munch_text_append c rest
      intro r hr
      rw [locate, List.flatMap_cons, List.mem_append] at hr
      rcases hr with hfirst | hrest
      · have hoffset : (Location.start.after before).offset = Text.width before := by
          rw [Location.offset_after]
          exact Nat.zero_add _
        have hfits := fits_regionsOf (munched_munch c rest) hoffset r hfirst
        rwa [List.append_assoc, htext] at hfits
      · rw [← Location.after_append] at hrest
        have hfits := ih (before ++ (munch c rest).1.text) r hrest
        rwa [List.append_assoc, htext] at hfits

end Scanning

/-! ## The end of the source -/

/-- The rows of a token listing: the tokens, and behind them the end of the source, which is empty. -/
def Scan.listing (s : Scan) : List (String × String × Span) :=
  s.tokens.map (fun t => (t.kind.name, t.lexeme, t.span)) ++ [(endName, "", ⟨s.finish, s.finish⟩)]

namespace Scanning

theorem endName_ne_name (kind : Kind) : kind.name ≠ endName := by
  cases kind <;> decide

/-- The end of the source is listed once, as the last row. -/
theorem filter_listing (s : Scan) :
    s.listing.filter (·.1 == endName) = [(endName, "", ⟨s.finish, s.finish⟩)] := by
  unfold Scan.listing
  rw [List.filter_append, List.filter_eq_nil_iff.2 ?_]
  · rfl
  · intro row hrow
    obtain ⟨t, _, rfl⟩ := List.mem_map.1 hrow
    simpa using endName_ne_name t.kind

end Scanning

open Scanning

/-! ## Main result -/

/-- What a scan and the regions of its source have to do with each other. -/
structure Scan.Partitions (s : Scan) (source : List Char) (regions : List Region) : Prop where
  tiles : Tiles 0 (Text.width source) regions
  /-- Every unit lies in one region. -/
  covered : ∀ k < Text.width source, ∃! r, r ∈ regions ∧ r.start ≤ k ∧ k < r.stop
  fits : ∀ r ∈ regions, r.Fits (source.flatMap Text.units)
  tokens : s.tokens = regions.filterMap Region.token?
  errors : s.errors = regions.filterMap Region.error?
  tokensOrdered : s.tokens.Pairwise fun t t' => t.span.stop.offset ≤ t'.span.start.offset
  errorsOrdered : s.errors.Pairwise fun e e' => e.location.offset < e'.location.offset
  /-- The listing has one row for the end, behind all tokens. -/
  endLast : s.listing.getLast? = some (endName, "", ⟨s.finish, s.finish⟩)
  endOnce : s.listing.filter (·.1 == endName) = [(endName, "", ⟨s.finish, s.finish⟩)]
  finish : s.finish.offset = Text.width source

/-- **Scanning partitions the source.** Its units lie in regions, one behind the other, that are tokens,
white space, comments and what errors are about, each of them as long as it can be. -/
theorem scan_partitions (source : List Char) :
    ∃ regions, (scan source).Partitions source regions := by
  let located := Piece.locate .start (Piece.pieces source)
  let regions := located.flatMap fun (l, p) => regionsOf l p
  have htiles : Tiles 0 (Text.width source) regions := by
    have htiles := tiles_locate .start (Piece.text_ne_nil_of_mem_pieces source)
    rw [Piece.text_pieces, Location.offset_after] at htiles
    exact (Nat.zero_add (Text.width source)) ▸ htiles
  have hfits : ∀ r ∈ regions, r.Fits (source.flatMap Text.units) := fits_locate [] source
  have htokens : (scan source).tokens = regions.filterMap Region.token? := by
    show located.filterMap _ = _
    rw [List.filterMap_flatMap, List.filterMap_eq_flatMap_toList]
    exact List.flatMap_congr fun e _ => (token?_regionsOf e.1 e.2).symm
  have herrors : (scan source).errors = regions.filterMap Region.error? := by
    show located.flatMap _ = _
    rw [List.filterMap_flatMap]
    exact List.flatMap_congr fun e _ => (error?_regionsOf e.1 e.2).symm
  refine ⟨regions, ⟨htiles, fun k => htiles.existsUnique k (Nat.zero_le k), hfits, htokens, herrors,
    ?_, ?_, List.getLast?_concat, filter_listing _, ?_⟩⟩
  -- the regions are in order, and so is what is read off them one by one
  · rw [htokens]
    refine List.pairwise_filterMap.2 (htiles.pairwise.imp_of_mem fun hr hr' hlt t ht t' ht' => ?_)
    rw [((hfits _ hr).isToken ht).stop, ((hfits _ hr').isToken ht').start]
    exact hlt.2
  · rw [herrors]
    refine List.pairwise_filterMap.2 (htiles.pairwise.imp_of_mem fun hr hr' hlt e he e' he' => ?_)
    rw [((hfits _ hr).isError he).1, ((hfits _ hr').isError he').1]
    omega
  · show (Location.start.after source).offset = _
    rw [Location.offset_after]
    exact Nat.zero_add _

end Lox
