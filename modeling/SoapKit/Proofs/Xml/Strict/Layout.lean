import SoapKit.Proofs.Xml.Agreement.Readers
import SoapKit.Proofs.Xml.Draft.Declarations
import SoapKit.Proofs.Xml.Taking

/-!
# Reading strictly what was laid out

Pieces that are laid out as a text come back from the strict reader one by one, as they do from the
lenient one. The tokens of the text are those of the pieces, and in between there are the line
breaks as data of their own (`Strict.tokenizes_layout`), which leave no trace. So reading a layout
is stepping through what its pieces stand for (`Document.read_strict_render`).

This needs names in the sense of the grammar, characters that may stand in a document, and none
among them that would be normalized when they are read again (`Piece.IsStrict`).
-/

namespace SoapKit.Xml

open Text (isXmlBlank)

/-! ## Names -/

/-- What may stand on either side of the colon of a name. -/
def Strict.IsNamePart (s : String) : Prop :=
  s.toList.head?.any Strict.isNameStart = true ∧ ∀ c ∈ s.toList, Strict.isNameChar c = true

instance (s : String) : Decidable (Strict.IsNamePart s) :=
  decidable_of_iff (s.toList.head?.any Strict.isNameStart = true ∧
    s.toList.all Strict.isNameChar = true) (by rw [Strict.IsNamePart, List.all_eq_true])

/-- A name that the strict reader takes. -/
structure Name.IsStrict (name : Name) : Prop where
  qualifier : ∀ qualifier, name.qualifier = some qualifier → Strict.IsNamePart qualifier
  base : Strict.IsNamePart name.base

theorem Strict.IsNamePart.ne_empty {s : String} (h : Strict.IsNamePart s) : s ≠ "" := by
  rintro rfl
  exact absurd h.1 (by decide)

theorem Strict.IsNamePart.isNcName {s : String} (h : Strict.IsNamePart s) : IsNcName s :=
  ⟨⟨h.ne_empty, fun c hc => by rw [Xml.isNameChar, h.2 c hc, Bool.or_true, Bool.true_or]⟩,
    not_mem_of_isNameChar h.2⟩

theorem Name.IsStrict.wellFormed {name : Name} (h : name.IsStrict) : name.WellFormed where
  qualifier qualifier hq := (h.qualifier qualifier hq).isNcName
  base := h.base.isNcName

theorem Name.IsStrict.spells {name : Name} (h : name.IsStrict) : Spells name.text.toList name where
  written := .inl rfl
  base := ⟨h.base.ne_empty, h.base.2⟩
  qualifier qualifier hq := (h.qualifier qualifier hq).2

namespace Strict

/-- A name is taken up to a character that does not go on with it. -/
theorem takeName_text {name : Name} (h : name.IsStrict) {rest : List Char}
    (hrest : Text.StopsAt (fun c => isNameChar c || c == ':') rest) :
    takeName (name.text.toList ++ rest) = some (name, rest) := by
  obtain ⟨qualifier, base⟩ := name
  have hstop : Text.StopsAt isNameChar rest :=
    fun c hc => (Bool.or_eq_false_iff.1 (hrest c hc)).1
  have hbase := h.base.2
  cases qualifier with
  | none =>
    simp only [Name.text, takeName, Text.takeWhile_span hbase hstop,
      Text.dropWhile_span hbase hstop]
    split
    · rename_i after
      have hcolon := hrest ':' rfl
      simp at hcolon
    · rw [if_pos h.base.1, String.ofList_toList]
  | some qualifier =>
    have hqualifier := h.qualifier qualifier rfl
    have hne : qualifier.toList.isEmpty = false := by
      simpa using hqualifier.ne_empty
    have hcolon : Text.StopsAt isNameChar (':' :: (base.toList ++ rest)) :=
      Text.stopsAt_cons (by decide)
    have hwhole : (Name.text ⟨some qualifier, base⟩).toList ++ rest =
        qualifier.toList ++ ':' :: (base.toList ++ rest) := by
      simp [Name.text]
    rw [hwhole]
    simp only [takeName, Text.takeWhile_span hqualifier.2 hcolon,
      Text.dropWhile_span hqualifier.2 hcolon, Text.takeWhile_span hbase hstop,
      Text.dropWhile_span hbase hstop, hne, Bool.false_or, hqualifier.1, h.base.1, Bool.and_self,
      if_true, Bool.false_eq_true, if_false, String.ofList_toList]

/-! ## Data -/

theorem takeChars_append {stop : List Char → Bool} {body : List Char}
    (hbody : ∀ c ∈ body, isXmlChar c = true)
    (hgo : ∀ c ∈ body, ∀ more, stop (c :: more) = false) {c : Char} {rest : List Char}
    (hc : isXmlChar c = true) (hstop : stop (c :: rest) = true) :
    takeChars stop (body ++ c :: rest) = some (body, c :: rest) := by
  induction body with
  | nil => simp [takeChars, hc, hstop]
  | cons b body ih =>
    rw [List.forall_mem_cons] at hbody hgo
    rw [List.cons_append, takeChars, hgo.1, ih hbody.2 hgo.2]
    simp [hbody.1]

theorem isXmlChar_of_mem_escape {s : List Char} (h : ∀ c ∈ s, isXmlChar c = true) :
    ∀ c ∈ escape s, isXmlChar c = true := by
  have hall : (namedCharacters.all fun named =>
      ('&' :: (named.1.toList ++ [';'])).all isXmlChar) = true := by decide
  intro c hc
  rw [escape, List.mem_flatMap] at hc
  obtain ⟨x, hx, hc⟩ := hc
  rcases escapeChar_cases x with ⟨name, hname, heq⟩ | ⟨-, heq⟩
  · rw [heq] at hc
    exact List.all_eq_true.1 (List.all_eq_true.1 hall _ hname) c hc
  · rw [heq, List.mem_singleton] at hc
    rw [hc]
    exact h x hx

/-- Escaped data is read as its characters, some of them as referred to. -/
theorem units_escape (s : List Char) :
    ∃ us, units (escape s) = some us ∧ us.map (·.char) = s := by
  have hall : (namedCharacters.all fun named =>
      !named.1.toList.contains ';' && referred? named.1.toList == some named.2) = true := by decide
  induction s with
  | nil => exact ⟨[], by rw [escape, List.flatMap_nil, units], rfl⟩
  | cons c s ih =>
    obtain ⟨us, hus, hchars⟩ := ih
    have hsplit : escape (c :: s) = escapeChar c ++ escape s := by
      simp [escape]
    rw [hsplit]
    rcases escapeChar_cases c with ⟨name, hname, hc⟩ | ⟨hnone, hc⟩
    · have hreferred : ';' ∉ name.toList ∧ referred? name.toList = some c := by
        simpa using List.all_eq_true.1 hall _ hname
      refine ⟨.referred c :: us, ?_, congrArg (c :: ·) hchars⟩
      rw [hc, List.cons_append, List.append_assoc, List.singleton_append,
        units_reference hreferred.1, hreferred.2, hus]
      rfl
    · refine ⟨.written c :: us, ?_, congrArg (c :: ·) hchars⟩
      rw [hc, List.singleton_append, units_cons (hnone ("amp", '&') (by decide)).symm, hus]
      rfl

theorem mem_map_char {us : List DataUnit} {c : Char} (h : .written c ∈ us) :
    c ∈ us.map (·.char) :=
  List.mem_map.2 ⟨_, h, rfl⟩

/-- Escaped data without carriage returns is the data. -/
theorem normalizeText_units_escape {data : List Char} (h : '\r' ∉ data) :
    (units (escape data)).map (normalizeText false) = some data := by
  obtain ⟨us, hus, hchars⟩ := units_escape data
  rw [hus, Option.map_some, normalizeText_eq, hchars]
  exact fun hmem => h (hchars ▸ mem_map_char hmem)

/-- An escaped value without blanks other than spaces is the value. -/
theorem normalizeValue_units_escape {value : List Char} (h : IsSteadyValue value) :
    (units (escape value)).map normalizeValue = some value := by
  obtain ⟨us, hus, hchars⟩ := units_escape value
  rw [hus, Option.map_some, normalizeValue_eq, hchars]
  intro c hmem
  have hc := h c (hchars ▸ mem_map_char hmem)
  refine ⟨?_, ?_, ?_⟩ <;> rintro rfl <;> simpa using hc (by decide)

end Strict

/-! ## Pieces that the strict reader takes -/

namespace Piece

/-- An attribute whose name and value are read as they are written. -/
structure IsStrictAttribute (attr : String × String) : Prop where
  name : (Name.parse attr.1).IsStrict
  chars : ∀ c ∈ attr.2.toList, Strict.isXmlChar c = true
  steady : IsSteadyValue attr.2.toList

/-- A tag or some data that is read as it is written. -/
def IsStrict : Piece → Prop
  | .opening name attributes | .empty name attributes =>
    (Name.parse name).IsStrict ∧ ∀ attr ∈ attributes, IsStrictAttribute attr
  | .closing name => (Name.parse name).IsStrict
  | .text data => data ≠ "" ∧ (∀ c ∈ data.toList, Strict.isXmlChar c = true) ∧ '\r' ∉ data.toList
  | .declaration | .verbatim _ => False

/-- Whether a piece is the tag that an element begins with. -/
def isOpening : Piece → Bool
  | .opening .. | .empty .. => true
  | _ => false

/-- Whether pieces inside of `depth` open elements go on until all of these are closed, and end
there. -/
def Closes : Nat → List Piece → Prop
  | depth, [] => depth = 0
  | depth, piece :: rest => 0 < depth ∧ Closes (piece.depths depth).2 rest

open Strict (Event) in
/-- What a piece drives the strict reader with. -/
def event : Piece → Event
  | .opening name attributes =>
    .opening (Name.parse name) (attributes.map fun attr => (Name.parse attr.1, attr.2)) false
  | .empty name attributes =>
    .opening (Name.parse name) (attributes.map fun attr => (Name.parse attr.1, attr.2)) true
  | .closing name => .closing (Name.parse name)
  | .text data => .data data.toList
  | .declaration | .verbatim _ => .separator

open Strict (Event) in
/-- What drives the strict reader in a layout: the pieces, and the line breaks between them. -/
def events (depth : Nat) (fresh : Bool) : List Piece → List Event
  | [] => []
  | piece :: rest =>
    let (here, next) := piece.depths depth
    let lead := if fresh || piece.isData then [] else [.data (lineBreak here).toList]
    lead ++ piece.event :: events next piece.isData rest

theorem events_cons (depth : Nat) (fresh : Bool) (piece : Piece) (rest : List Piece) :
    events depth fresh (piece :: rest) =
      (if fresh || piece.isData then [] else [.data (lineBreak (piece.depths depth).1).toList]) ++
        piece.event :: events (piece.depths depth).2 piece.isData rest :=
  rfl

end Piece

namespace Strict

open Piece (IsStrictAttribute attributeText tagText)

theorem takeName_written {key : String} (h : (Name.parse key).IsStrict) {rest : List Char}
    (hrest : Text.StopsAt (fun c => isNameChar c || c == ':') rest) :
    takeName (key.toList ++ rest) = some (Name.parse key, rest) := by
  have htake := takeName_text h hrest
  rwa [Name.text_parse] at htake

theorem takeAttribute_written {attr : String × String} (h : IsStrictAttribute attr)
    (rest : List Char) :
    takeAttribute (attr.1.toList ++ '=' :: '"' :: (escape attr.2.toList ++ '"' :: rest)) =
      some ((Name.parse attr.1, escape attr.2.toList), rest) := by
  have hname : takeName (attr.1.toList ++ '=' :: '"' :: (escape attr.2.toList ++ '"' :: rest)) =
      some (Name.parse attr.1, '=' :: '"' :: (escape attr.2.toList ++ '"' :: rest)) :=
    takeName_written h.name (Text.stopsAt_cons (by decide))
  have hvalue : takeChars (fun s => s.head? == some '"' || s.head? == some '<')
      (escape attr.2.toList ++ '"' :: rest) = some (escape attr.2.toList, '"' :: rest) := by
    refine takeChars_append (isXmlChar_of_mem_escape h.chars) (fun c hc more => ?_) rfl rfl
    have hquote : c ≠ '"' := fun heq => not_mem_escape (by decide) _ (heq ▸ hc)
    have hopen : c ≠ '<' := fun heq => not_mem_escape (by decide) _ (heq ▸ hc)
    simp [hquote, hopen]
  simp [takeAttribute, hname, hvalue, Text.after?, isXmlBlank]

/-- The attributes of a tag are taken as they are written. -/
theorem takeAttributes_written {attributes : List (String × String)}
    (h : ∀ attr ∈ attributes, IsStrictAttribute attr) (empty : Bool) (rest : List Char)
    {steps : Nat} (hsteps : attributes.length < steps) :
    takeAttributes steps ((attributes.flatMap fun attr => (attributeText attr).toList) ++
        (tagEnd empty ++ rest)) =
      some ((attributes.map fun attr => (Name.parse attr.1, escape attr.2.toList), empty),
        rest) := by
  obtain ⟨steps, rfl⟩ : ∃ k, steps = k + 1 := ⟨steps - 1, by omega⟩
  induction attributes generalizing steps with
  | nil => cases empty <;> simp [takeAttributes, tagEnd, isXmlBlank]
  | cons attr more ih =>
    rw [List.forall_mem_cons] at h
    rw [List.length_cons] at hsteps
    obtain ⟨c, key, hkey, hmark⟩ := h.1.name.wellFormed.isName_text.cons
    rw [Name.text_parse] at hkey
    have hne : ∀ {m}, isMark m = true → c ≠ m := by
      rintro m hm rfl
      rw [hmark] at hm
      cases hm
    have hattribute := takeAttribute_written h.1
      ((more.flatMap fun attr => (attributeText attr).toList) ++ (tagEnd empty ++ rest))
    have hdrop : ∀ s, (' ' :: (attr.1.toList ++ s)).dropWhile isXmlBlank = attr.1.toList ++ s := by
      intro s
      have hblank : isXmlBlank c = false :=
        IsPlain.not_blank (s := [c]) (by simpa [IsPlain] using hmark) List.mem_cons_self
      rw [hkey, List.dropWhile_cons_of_pos rfl]
      exact Text.dropWhile_of_stopsAt (Text.stopsAt_cons hblank)
    have hwritten : ((attr :: more).flatMap fun attr => (attributeText attr).toList) ++
        (tagEnd empty ++ rest) =
          ' ' :: (attr.1.toList ++ '=' :: '"' :: (escape attr.2.toList ++ '"' ::
            ((more.flatMap fun attr => (attributeText attr).toList) ++
              (tagEnd empty ++ rest)))) := by
      simp [Lenient.toList_attributeText]
    obtain ⟨steps, rfl⟩ : ∃ k, steps = k + 1 := ⟨steps - 1, by omega⟩
    rw [hwritten, takeAttributes, hdrop]
    split
    · rename_i heq
      rw [hkey] at heq
      exact absurd (List.cons.inj heq).1 (hne (by decide))
    · rename_i heq
      rw [hkey] at heq
      exact absurd (List.cons.inj heq).1 (hne (by decide))
    · simp only [List.head?_cons, Option.any_some, show isXmlBlank ' ' = true from rfl, if_true]
      rw [hattribute, Option.bind_eq_bind, Option.bind_some]
      simp only
      rw [ih h.2 steps (by omega)]
      rfl

theorem length_le_length_attributes (attributes : List (String × String)) :
    attributes.length ≤
      (attributes.flatMap fun attr => (attributeText attr).toList).length := by
  induction attributes with
  | nil => simp
  | cons attr rest ih =>
    rw [List.flatMap_cons, List.length_append, Lenient.toList_attributeText]
    simp only [List.length_cons]
    omega

theorem takeOpening_written {name : String} {attributes : List (String × String)}
    (hname : (Name.parse name).IsStrict) (h : ∀ attr ∈ attributes, IsStrictAttribute attr)
    (empty : Bool) (rest : List Char) :
    takeOpening ((tagText name attributes).toList ++ (tagEnd empty ++ rest)) =
      some (.opening (Name.parse name)
        (attributes.map fun attr => (Name.parse attr.1, escape attr.2.toList)) empty, rest) := by
  have hstop : Text.StopsAt (fun c => isNameChar c || c == ':')
      ((attributes.flatMap fun attr => (attributeText attr).toList) ++ (tagEnd empty ++ rest)) := by
    cases attributes with
    | nil => cases empty <;> exact Text.stopsAt_cons (by decide)
    | cons attr more =>
      rw [List.flatMap_cons, Lenient.toList_attributeText]
      exact Text.stopsAt_cons (by decide)
  have hlength := length_le_length_attributes attributes
  rw [takeOpening, Lenient.toList_tagText, List.append_assoc, takeName_written hname hstop,
    Option.bind_eq_bind, Option.bind_some]
  simp only
  rw [takeAttributes_written h empty rest (by rw [List.length_append]; omega)]
  rfl

theorem takeClosing_written {name : String} (hname : (Name.parse name).IsStrict)
    (rest : List Char) :
    takeClosing (name.toList ++ '>' :: rest) = some (.closing (Name.parse name), rest) := by
  have htake : takeName (name.toList ++ '>' :: rest) = some (Name.parse name, '>' :: rest) :=
    takeName_written hname (Text.stopsAt_cons (by decide))
  simp [takeClosing, htake, Text.after?, isXmlBlank]

/-- Data is taken up to the next markup. -/
theorem takeInside_data {body : List Char} (hne : body ≠ [])
    (hchars : ∀ c ∈ body, isXmlChar c = true) (hopen : '<' ∉ body) (hclose : '>' ∉ body)
    (rest : List Char) : takeInside (body ++ '<' :: rest) = some (.text body, '<' :: rest) := by
  have htake : takeChars (·.head? == some '<') (body ++ '<' :: rest) =
      some (body, '<' :: rest) := by
    refine takeChars_append hchars (fun c hc more => ?_) rfl rfl
    have hc : c ≠ '<' := fun heq => hopen (heq ▸ hc)
    simpa using hc
  have htext : takeText (body ++ '<' :: rest) = some (.text body, '<' :: rest) := by
    rw [takeText, htake, Option.bind_eq_bind, Option.bind_some]
    simp only
    rw [Text.splitAtText_eq_none (show '>' ∈ "]]>".toList by decide) hclose]
    rfl
  obtain ⟨c, body, rfl⟩ := List.exists_cons_of_ne_nil hne
  have hc : c ≠ '<' := fun heq => hopen (heq ▸ List.mem_cons_self)
  rw [← htext, List.cons_append, takeInside.eq_7]
  all_goals simp [hc]

theorem takeInside_tag {c : Char} (hc : isMark c = false) (s : List Char) :
    takeInside ('<' :: c :: s) = takeOpening (c :: s) := by
  have hne : c ≠ '!' ∧ c ≠ '?' ∧ c ≠ '/' := by
    refine ⟨?_, ?_, ?_⟩ <;> rintro rfl <;> exact absurd hc (by decide)
  rw [takeInside.eq_5]
  all_goals simp [hne]

theorem takeAtTop_tag {c : Char} (hc : isMark c = false) (s : List Char) :
    takeAtTop false ('<' :: c :: s) = takeOpening (c :: s) := by
  have hne : c ≠ '!' ∧ c ≠ '?' := by
    refine ⟨?_, ?_⟩ <;> rintro rfl <;> exact absurd hc (by decide)
  rw [takeAtTop.eq_3]
  all_goals simp [hne]

/-- The token of an opening tag or of an empty element. -/
theorem event_opening {name : String} {attributes : List (String × String)} (empty : Bool)
    (h : ∀ attr ∈ attributes, IsStrictAttribute attr) :
    (Token.opening (Name.parse name)
        (attributes.map fun attr => (Name.parse attr.1, escape attr.2.toList)) empty).event =
      some (.opening (Name.parse name) (attributes.map fun attr => (Name.parse attr.1, attr.2))
        empty) := by
  simp only [Token.event, Option.bind_eq_bind, Option.bind_eq_some_iff]
  refine ⟨_, mapM_eq_some_iff.2 ?_, rfl⟩
  rw [List.forall₂_map_left_iff, List.forall₂_map_right_iff, List.forall₂_same]
  intro attr hattr
  obtain ⟨us, hus, hvalue⟩ :=
    Option.map_eq_some_iff.1 (normalizeValue_units_escape (h attr hattr).steady)
  simp [hus, hvalue]

/-- A tag of an element's beginning, wherever it stands. -/
theorem exists_opening {piece : Piece} (h : piece.IsStrict) (hopening : piece.isOpening = true)
    (rest : List Char) :
    ∃ c s t, isMark c = false ∧ piece.written.toList ++ rest = '<' :: c :: s ∧
      takeOpening (c :: s) = some (t, rest) ∧ t.event = some piece.event ∧ t.isTag = true ∧
      ∀ depth, t.depthAfter depth = (piece.depths depth).2 := by
  have htag : ∀ (name : String) (attributes : List (String × String)) (empty : Bool),
      (Name.parse name).IsStrict → ∃ c s, isMark c = false ∧
        (tagText name attributes).toList ++ (tagEnd empty ++ rest) = c :: s := by
    intro name attributes empty hname
    obtain ⟨c, key, hkey, hmark⟩ := hname.wellFormed.isName_text.cons
    rw [Name.text_parse] at hkey
    exact ⟨c, _, hmark, by rw [Lenient.toList_tagText, hkey]; rfl⟩
  cases piece with
  | opening name attributes =>
    obtain ⟨c, s, hmark, hs⟩ := htag name attributes false h.1
    refine ⟨c, s, _, hmark, ?_, ?_, event_opening false h.2, rfl, fun _ => rfl⟩
    · rw [← hs]
      simp [Piece.written, tagEnd]
    · rw [← hs]
      exact takeOpening_written h.1 h.2 false rest
  | empty name attributes =>
    obtain ⟨c, s, hmark, hs⟩ := htag name attributes true h.1
    refine ⟨c, s, _, hmark, ?_, ?_, event_opening true h.2, rfl, fun _ => rfl⟩
    · rw [← hs]
      simp [Piece.written, tagEnd]
    · rw [← hs]
      exact takeOpening_written h.1 h.2 true rest
  | _ => cases hopening

/-- A piece is one token. Data has to end before markup. -/
theorem takeInside_written {piece : Piece} (h : piece.IsStrict) {rest : List Char}
    (hrest : piece.isData = true → rest.head? = some '<') :
    ∃ t, takeInside (piece.written.toList ++ rest) = some (t, rest) ∧
      t.event = some piece.event ∧ ∀ depth, t.depthAfter depth = (piece.depths depth).2 := by
  cases piece with
  | opening name attributes =>
    obtain ⟨c, s, t, hmark, hs, ht, hevent, -, hdepth⟩ := exists_opening h rfl rest
    exact ⟨t, by rw [hs, takeInside_tag hmark, ht], hevent, hdepth⟩
  | empty name attributes =>
    obtain ⟨c, s, t, hmark, hs, ht, hevent, -, hdepth⟩ := exists_opening h rfl rest
    exact ⟨t, by rw [hs, takeInside_tag hmark, ht], hevent, hdepth⟩
  | closing name =>
    have hwritten : (Piece.closing name).written.toList ++ rest =
        '<' :: '/' :: (name.toList ++ '>' :: rest) := by
      simp [Piece.written]
    exact ⟨_, by rw [hwritten, takeInside]; exact takeClosing_written h rest, rfl, fun _ => rfl⟩
  | text data =>
    obtain ⟨hne, hchars, hreturn⟩ := h
    obtain ⟨more, rfl⟩ := List.head?_eq_some_iff.1 (hrest rfl)
    have hwritten : (Piece.text data).written.toList = escape data.toList := by
      simp [Piece.written, escaped]
    have hnil : escape data.toList ≠ [] := by
      rw [Ne, escape_eq_nil_iff]
      simpa using hne
    refine ⟨.text (escape data.toList), ?_, ?_, fun _ => rfl⟩
    · rw [hwritten]
      exact takeInside_data hnil (isXmlChar_of_mem_escape hchars) (not_mem_escape (by decide) _)
        (not_mem_escape (by decide) _) more
    · obtain ⟨us, hus, hdata⟩ := Option.map_eq_some_iff.1 (normalizeText_units_escape hreturn)
      rw [Token.event, hus, Option.map_some, hdata]
      rfl
  | declaration => exact h.elim
  | verbatim markup => exact h.elim

/-! ## Tokens of a layout -/

/-- The tokens of a text inside of `depth` open elements, for as many steps as it has characters or
more. -/
def Tokenizes (depth : Nat) (s : List Char) (tokens : List Token) : Prop :=
  ∀ steps, s.length < steps → tokensFrom steps depth true s = some tokens

theorem tokenizes_nil : Tokenizes 0 [] [] := by
  intro steps hsteps
  obtain ⟨steps, rfl⟩ : ∃ k, steps = k + 1 := ⟨steps - 1, by omega⟩
  rfl

theorem Tokenizes.cons {depth next : Nat} {written rest : List Char} {t : Token}
    {tokens : List Token} (h : Tokenizes next rest tokens) (hwritten : written ≠ [])
    (ht : takeInside (written ++ rest) = some (t, rest))
    (hnext : t.depthAfter (depth + 1) = next) :
    Tokenizes (depth + 1) (written ++ rest) (t :: tokens) := by
  subst hnext
  intro steps hsteps
  have hlength := List.length_pos_of_ne_nil hwritten
  rw [List.length_append] at hsteps
  obtain ⟨steps, rfl⟩ : ∃ k, steps = k + 1 := ⟨steps - 1, by omega⟩
  simp only [tokensFrom, Nat.add_one_ne_zero, if_false, decide_false, Bool.false_and,
    Bool.false_eq_true, ht, Option.bind_eq_bind, Option.bind_some, Bool.true_or]
  rw [h steps (by omega)]
  rfl

theorem lineBreak_toList (depth : Nat) :
    (Piece.lineBreak depth).toList = '\n' :: List.replicate (2 * depth) ' ' := by
  simp [Piece.lineBreak]

theorem mem_lineBreak {depth : Nat} {c : Char} (h : c ∈ (Piece.lineBreak depth).toList) :
    c = '\n' ∨ c = ' ' := by
  rw [lineBreak_toList, List.mem_cons, List.mem_replicate] at h
  exact h.imp_right And.right

/-- The line break in front of a tag is data. -/
theorem event_lineBreak (depth : Nat) :
    (Token.text (Piece.lineBreak depth).toList).event =
      some (.data (Piece.lineBreak depth).toList) := by
  have hunits : ∀ s : List Char, '&' ∉ s → units s = some (s.map .written) := by
    intro s hs
    induction s with
    | nil => rw [units]; rfl
    | cons c s ih =>
      rw [List.mem_cons, not_or] at hs
      rw [units_cons (Ne.symm hs.1), ih hs.2]
      rfl
  have hplain : ∀ m, m ≠ '\n' → m ≠ ' ' → m ∉ (Piece.lineBreak depth).toList :=
    fun m hfeed hspace hmem => (mem_lineBreak hmem).elim hfeed hspace
  have hreturn : DataUnit.written '\r' ∉ (Piece.lineBreak depth).toList.map .written := by
    intro hmem
    obtain ⟨c, hc, heq⟩ := List.mem_map.1 hmem
    cases heq
    exact hplain '\r' (by decide) (by decide) hc
  rw [Token.event, hunits _ (hplain '&' (by decide) (by decide)), Option.map_some,
    normalizeText_eq hreturn, Token.map_char_written]

theorem head?_written {piece : Piece} (h : piece.IsStrict) (hdata : piece.isData = false)
    (rest : List Char) : (piece.written.toList ++ rest).head? = some '<' := by
  cases piece with
  | declaration => exact h.elim
  | text data => cases hdata
  | verbatim markup => cases hdata
  | _ => simp [Piece.written]

theorem written_ne_nil {piece : Piece} (h : piece.IsStrict) : piece.written.toList ≠ [] := by
  cases piece with
  | declaration => exact h.elim
  | text data =>
    have hwritten : (Piece.text data).written.toList = escape data.toList := by
      simp [Piece.written, escaped]
    rw [hwritten, Ne, escape_eq_nil_iff]
    simpa using h.1
  | verbatim markup => exact h.elim
  | _ => simp [Piece.written]

/-- A layout inside of open elements has the tokens that its pieces and line breaks stand for. -/
theorem tokenizes_layout {pieces : List Piece} {depth : Nat} (hcloses : Piece.Closes depth pieces)
    (hstrict : ∀ piece ∈ pieces, piece.IsStrict) (hapart : pieces.IsChain Piece.Apart)
    (fresh : Bool) :
    ∃ tokens, Tokenizes depth (Piece.layout depth fresh pieces).toList tokens ∧
      List.Forall₂ (fun t event => t.event = some event) tokens
        (Piece.events depth fresh pieces) := by
  induction pieces generalizing depth fresh with
  | nil =>
    obtain rfl : depth = 0 := hcloses
    exact ⟨[], tokenizes_nil, .nil⟩
  | cons piece rest ih =>
    obtain ⟨hdepth, hcloses⟩ := hcloses
    obtain ⟨depth, rfl⟩ : ∃ k, depth = k + 1 := ⟨depth - 1, by omega⟩
    rw [List.forall_mem_cons] at hstrict
    rw [List.isChain_cons] at hapart
    obtain ⟨tokens, htokens, hevents⟩ := ih hcloses hstrict.2 hapart.2 piece.isData
    -- behind data there is a tag
    have hrest : piece.isData = true → (Piece.layout (piece.depths (depth + 1)).2 piece.isData
        rest).toList.head? = some '<' := by
      intro hdata
      cases rest with
      | nil =>
        have hdepths : (piece.depths (depth + 1)).2 = depth + 1 := by
          cases piece <;> first | rfl | cases hdata
        rw [Piece.Closes, hdepths] at hcloses
        cases hcloses
      | cons next others =>
        have hnext : next.isData = false :=
          (hapart.1 next rfl).resolve_left (by simp [hdata])
        rw [Piece.layout, hdata]
        simpa using head?_written (hstrict.2 next List.mem_cons_self) hnext _
    obtain ⟨t, ht, hevent, hdepths⟩ := takeInside_written hstrict.1 hrest
    have htag := htokens.cons (written_ne_nil hstrict.1) ht (hdepths _)
    cases hlead : fresh || piece.isData with
    | true =>
      refine ⟨t :: tokens, ?_, ?_⟩
      · rw [Piece.layout]
        simpa [hlead] using htag
      · rw [Piece.events_cons, hlead]
        exact .cons hevent hevents
    | false =>
      have hdata : piece.isData = false := (Bool.or_eq_false_iff.1 hlead).2
      obtain ⟨more, hmore⟩ := List.head?_eq_some_iff.1 (head?_written hstrict.1 hdata
        (Piece.layout (piece.depths (depth + 1)).2 piece.isData rest).toList)
      have hblank : ∀ m, m ≠ '\n' → m ≠ ' ' →
          m ∉ (Piece.lineBreak (piece.depths (depth + 1)).1).toList :=
        fun m hfeed hspace hmem => (mem_lineBreak hmem).elim hfeed hspace
      have hbreak := takeInside_data
        (show (Piece.lineBreak (piece.depths (depth + 1)).1).toList ≠ [] by simp [lineBreak_toList])
        (fun c hc => by rcases mem_lineBreak hc with rfl | rfl <;> decide)
        (hblank '<' (by decide) (by decide)) (hblank '>' (by decide) (by decide)) more
      rw [← hmore] at hbreak
      refine ⟨.text (Piece.lineBreak (piece.depths (depth + 1)).1).toList :: t :: tokens, ?_, ?_⟩
      · rw [Piece.layout]
        have hwhole := htag.cons (by simp [lineBreak_toList]) hbreak rfl
        simpa [hlead] using hwhole
      · rw [Piece.events_cons, hlead]
        exact .cons (event_lineBreak _) (.cons hevent hevents)

/-! ## Stepping through a layout -/

theorem joinData_cons_of_not_data {event : Event} (h : ∀ data, event ≠ .data data)
    (rest : List Event) : joinData (event :: rest) = event :: joinData rest := by
  cases event with
  | data data => exact absurd rfl (h data)
  | _ => rfl

theorem event_ne_data {piece : Piece} (hdata : piece.isData = false) (data : List Char) :
    piece.event ≠ .data data := by
  cases piece with
  | text text => cases hdata
  | verbatim markup => cases hdata
  | _ => simp [Piece.event]

/-- No two runs of data in a layout follow each other, so nothing is joined. -/
theorem joinData_events {pieces : List Piece} (hstrict : ∀ piece ∈ pieces, piece.IsStrict)
    (hapart : pieces.IsChain Piece.Apart) (depth : Nat) (fresh : Bool) :
    joinData (Piece.events depth fresh pieces) = Piece.events depth fresh pieces := by
  induction pieces generalizing depth fresh with
  | nil => rfl
  | cons piece rest ih =>
    rw [List.forall_mem_cons] at hstrict
    rw [List.isChain_cons] at hapart
    have hrest := ih hstrict.2 hapart.2 (piece.depths depth).2 piece.isData
    cases hdata : piece.isData with
    | true =>
      obtain ⟨data, rfl⟩ : ∃ data, piece = .text data := by
        cases piece with
        | text data => exact ⟨data, rfl⟩
        | verbatim markup => exact hstrict.1.elim
        | _ => cases hdata
      rw [Piece.events_cons, hdata, Bool.or_true, if_pos rfl, List.nil_append]
      cases rest with
      | nil => rfl
      | cons next others =>
        have hnext : next.isData = false := (hapart.1 next rfl).resolve_left (by simp [hdata])
        rw [hdata, Piece.events_cons, Bool.true_or, if_pos rfl, List.nil_append,
          joinData_cons_of_not_data (event_ne_data hnext)] at hrest
        rw [Piece.events_cons, Bool.true_or, if_pos rfl, List.nil_append, Piece.event,
          joinData_data_of_not_data _ (event_ne_data hnext), List.cons_eq_cons.1 hrest |>.2]
    | false =>
      rw [hdata] at hrest
      rw [Piece.events_cons, hdata, Bool.or_false]
      cases fresh with
      | true =>
        rw [if_pos rfl, List.nil_append, joinData_cons_of_not_data (event_ne_data hdata), hrest]
      | false =>
        rw [if_neg Bool.false_ne_true, List.singleton_append,
          joinData_data_of_not_data _ (event_ne_data hdata), hrest]

/-- Line breaks leave no trace. -/
theorem foldlM_events (pieces : List Piece) (depth : Nat) (fresh : Bool) (r : Reading) :
    (Piece.events depth fresh pieces).foldlM Reading.step r =
      (pieces.map Piece.event).foldlM Reading.step r := by
  induction pieces generalizing depth fresh r with
  | nil => rfl
  | cons piece rest ih =>
    have hstep : ∀ depth, r.step (.data (Piece.lineBreak depth).toList) = .ok r := by
      intro depth
      have hblank : Text.isAllBlank (String.ofList (Piece.lineBreak depth).toList) = true := by
        rw [Text.isAllBlank, String.toList_ofList, List.all_eq_true]
        intro c hc
        rcases mem_lineBreak hc with rfl | rfl <;> decide
      rw [Reading.step, Assembly.addText_blank hblank]
      rfl
    have hrest : ∀ depth fresh, (fun r => (Piece.events depth fresh rest).foldlM Reading.step r) =
        fun r => (rest.map Piece.event).foldlM Reading.step r :=
      fun depth fresh => funext fun r => ih depth fresh r
    rw [Piece.events_cons, List.map_cons, List.foldlM_cons,
      ← hrest (piece.depths depth).2 piece.isData]
    cases fresh || piece.isData with
    | true => rw [if_pos rfl, List.nil_append, List.foldlM_cons]
    | false =>
      rw [if_neg Bool.false_ne_true, List.singleton_append, List.foldlM_cons, hstep,
        ← List.foldlM_cons]
      rfl

/-! ## Whole documents -/

theorem takeDeclaration_written (rest : List Char) :
    takeDeclaration (Piece.declaration.written.toList ++ rest) = some rest := by
  rfl

end Strict

/-- Behind an XML declaration a document element stands on a line of its own. -/
theorem Piece.toList_render {first : Piece} (hfirst : first.isOpening = true)
    (rest : List Piece) :
    (render (.declaration :: first :: rest)).toList =
      declaration.written.toList ++ '\n' ::
        (first.written.toList ++ (layout (first.depths 0).2 first.isData rest).toList) := by
  have hdepth : (first.depths 0).1 = 0 ∧ first.isData = false := by
    cases first <;> first | exact ⟨rfl, rfl⟩ | cases hfirst
  have hlayout : layout 0 false (first :: rest) =
      lineBreak 0 ++ first.written ++ layout (first.depths 0).2 first.isData rest := by
    rw [layout]
    simp [hdepth]
  have hrender : render (.declaration :: first :: rest) =
      declaration.written ++ layout 0 false (first :: rest) := by
    rw [render, layout]
    simp [isData, depths]
  rw [hrender, hlayout]
  simp [lineBreak]

namespace Strict

/-- The tokens of a document that is laid out behind an XML declaration. -/
theorem tokens_render {first : Piece} {rest : List Piece} (hfirst : first.isOpening = true)
    (hstrict : ∀ piece ∈ first :: rest, piece.IsStrict)
    (hapart : (first :: rest).IsChain Piece.Apart)
    (hcloses : Piece.Closes (first.depths 0).2 rest) :
    ∃ found, tokens (Piece.render (.declaration :: first :: rest)).toList = some found ∧
      found.mapM Token.event =
        some (first.event :: Piece.events (first.depths 0).2 first.isData rest) := by
  rw [List.forall_mem_cons] at hstrict
  obtain ⟨others, hothers, hevents⟩ := tokenizes_layout hcloses hstrict.2
    (List.isChain_cons.1 hapart).2 first.isData
  obtain ⟨c, s, t, hmark, hwritten, ht, hevent, htag, hdepth⟩ := exists_opening hstrict.1 hfirst
    (Piece.layout (first.depths 0).2 first.isData rest).toList
  have htext := Piece.toList_render hfirst rest
  rw [hwritten] at htext
  have hlength := congrArg List.length hwritten
  rw [List.length_append, List.length_cons] at hlength
  refine ⟨t :: others, ?_, mapM_eq_some_iff.2 (.cons hevent hevents)⟩
  rw [htext, tokens, if_neg (by simp [Piece.written]), takeDeclaration_written]
  have htop : ('\n' :: '<' :: c :: s).dropWhile isXmlBlank = '<' :: c :: s := rfl
  rw [Option.bind_eq_bind, Option.bind_some, tokensFrom]
  simp only [if_true, decide_true, Bool.true_and, htop, List.isEmpty_cons, Bool.false_eq_true,
    if_false, takeAtTop_tag hmark, ht, Option.bind_eq_bind, Option.bind_some, htag, Bool.or_true,
    hdepth]
  rw [hothers _ (by simp only [List.length_cons] at hlength ⊢; omega)]
  rfl

end Strict

open Strict in
/-- What is laid out behind an XML declaration is read by stepping through what its pieces stand
for, if these are those of one element. -/
theorem Document.read_strict_render {first : Piece} {rest : List Piece}
    (hfirst : first.isOpening = true) (hstrict : ∀ piece ∈ first :: rest, piece.IsStrict)
    (hapart : (first :: rest).IsChain Piece.Apart)
    (hcloses : Piece.Closes (first.depths 0).2 rest) :
    Document.read .strict (Piece.render (.declaration :: first :: rest)) =
      ((first :: rest).map Piece.event).foldlM Reading.step ⟨Assembly.start, []⟩ >>= fun r =>
        r.assembly.finish := by
  obtain ⟨found, htokens, hevents⟩ := tokens_render hfirst hstrict hapart hcloses
  have hdata : first.isData = false := by
    cases first <;> first | rfl | cases hfirst
  have hblank : Text.isAllBlank (Piece.render (.declaration :: first :: rest)) = false := by
    rw [Text.isAllBlank, Piece.toList_render hfirst]
    rfl
  have hrest := joinData_events (fun piece hpiece => hstrict piece (List.mem_cons_of_mem _ hpiece))
    (List.isChain_cons.1 hapart).2 (first.depths 0).2 first.isData
  have hall := foldlM_events rest (first.depths 0).2 first.isData
  rw [Document.read, hblank, if_neg Bool.false_ne_true, Strict.read, htokens, Option.bind_some,
    hevents]
  simp only
  rw [joinData_cons_of_not_data (event_ne_data hdata), hrest, List.map_cons, List.foldlM_cons,
    List.foldlM_cons, funext hall]

end SoapKit.Xml
