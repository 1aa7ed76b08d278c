import SoapKit.Proofs.Except
import SoapKit.Proofs.Text.Spans
import SoapKit.Proofs.Xml.Assembly
import SoapKit.Proofs.Xml.Reference
import SoapKit.Text.Alphanumeric
import SoapKit.Xml.Lenient
import SoapKit.Xml.Output
import SoapKit.Xml.Strict.Character
import Mathlib.Data.List.Chain

/-!
# Reading what was laid out

Pieces that are laid out as a text come back from the lenient reader one by one: the markup of a tag
is the tag again with its attributes, escaped data is the data, and the line breaks in between are
blank and leave no trace. `Reading.take` says what a piece does to a reading; reading a layout is
taking its pieces in order (`foldlM_layout`).

This needs names that are made of name characters, and no two pieces of data side by side.
-/

namespace SoapKit.Xml

/-! ## Names -/

/-- The characters of names: letters, numerals, what XML allows besides, and the colon. -/
def isNameChar (c : Char) : Bool :=
  Text.isAlphanumeric c || Strict.isNameChar c || c == ':'

/-- A name has at least one character, and only those of names. -/
def IsName (name : String) : Prop :=
  name ≠ "" ∧ ∀ c ∈ name.toList, isNameChar c = true

instance (name : String) : Decidable (IsName name) :=
  decidable_of_iff (name ≠ "" ∧ name.toList.all isNameChar = true) (by
    rw [IsName, List.all_eq_true])

/-- The characters that mean something to a reader of markup. -/
def isMark (c : Char) : Bool :=
  "=<>/!?'\"& \t\r\n\x0c".toList.contains c

theorem isMark_of_isNameChar {c : Char} (h : isNameChar c = true) : isMark c = false := by
  have hmarks : ("=<>/!?'\"& \t\r\n\x0c".toList.all fun m => !isNameChar m) = true := by
    decide +kernel
  rw [isMark, List.contains_eq_mem, decide_eq_false_iff_not]
  intro hc
  have hnot := List.all_eq_true.1 hmarks c hc
  rw [h] at hnot
  cases hnot

/-- A text is free of marks. -/
def IsPlain (s : List Char) : Prop :=
  ∀ c ∈ s, isMark c = false

theorem IsName.plain {name : String} (h : IsName name) : IsPlain name.toList :=
  fun c hc => isMark_of_isNameChar (h.2 c hc)

theorem IsName.cons {name : String} (h : IsName name) :
    ∃ c rest, name.toList = c :: rest ∧ isMark c = false := by
  obtain ⟨c, rest, heq⟩ := List.exists_cons_of_ne_nil (l := name.toList) (by simpa using h.1)
  exact ⟨c, rest, heq, h.plain c (heq ▸ List.mem_cons_self)⟩

theorem IsPlain.ne {s : List Char} (h : IsPlain s) {c m : Char} (hc : c ∈ s)
    (hm : isMark m = true) : c ≠ m := by
  rintro rfl
  rw [h c hc] at hm
  cases hm

theorem IsPlain.not_blank {s : List Char} (h : IsPlain s) {c : Char} (hc : c ∈ s) :
    Text.isXmlBlank c = false := by
  simp only [Text.isXmlBlank, Bool.or_eq_false_iff, beq_eq_false_iff_ne]
  exact ⟨⟨⟨h.ne hc (by decide), h.ne hc (by decide)⟩, h.ne hc (by decide)⟩, h.ne hc (by decide)⟩

/-- The attributes of a written tag: their keys are names, each used once. -/
structure AreAttributes (attributes : List (String × String)) : Prop where
  names : ∀ attr ∈ attributes, IsName attr.1
  nodup : (attributes.map (·.1)).Nodup

instance (attributes : List (String × String)) : Decidable (AreAttributes attributes) :=
  decidable_of_iff ((∀ attr ∈ attributes, IsName attr.1) ∧ (attributes.map (·.1)).Nodup)
    ⟨fun h => ⟨h.1, h.2⟩, fun h => ⟨h.names, h.nodup⟩⟩

/-- Pieces that a reader can tell from each other: their names are names. -/
def Piece.Readable : Piece → Prop
  | .declaration => True
  | .opening name attributes => IsName name ∧ AreAttributes attributes
  | .empty name attributes => IsName name ∧ AreAttributes attributes
  | .closing name => IsName name
  | .text _ => True
  | .verbatim _ => False

instance : (piece : Piece) → Decidable piece.Readable
  | .declaration | .text _ => .isTrue trivial
  | .opening name attributes | .empty name attributes =>
    inferInstanceAs (Decidable (IsName name ∧ AreAttributes attributes))
  | .closing name => inferInstanceAs (Decidable (IsName name))
  | .verbatim _ => .isFalse id

/-- At most one of two pieces is data. -/
def Piece.Apart (a b : Piece) : Prop :=
  a.isData = false ∨ b.isData = false

instance (a b : Piece) : Decidable (a.Apart b) :=
  inferInstanceAs (Decidable (a.isData = false ∨ b.isData = false))

namespace Lenient

open Piece (attributeText tagText)

/-! ## The end of a tag -/

/-- A tag does not end inside of a text. -/
def Inside (s : List Char) : Prop :=
  ∀ rest, takeTag none (s ++ rest) = (takeTag none rest).map fun p => (s ++ p.1, p.2)

theorem Inside.append {s t : List Char} (hs : Inside s) (ht : Inside t) : Inside (s ++ t) := by
  intro rest
  rw [List.append_assoc, hs, ht]
  cases takeTag none rest <;> simp

theorem inside_plain {s : List Char} (h : ∀ c ∈ s, c ≠ '>' ∧ c ≠ '"' ∧ c ≠ '\'') : Inside s := by
  induction s with
  | nil =>
    intro rest
    cases h : takeTag none rest <;> simp [h]
  | cons c s ih =>
    rw [List.forall_mem_cons] at h
    obtain ⟨hgt, hdouble, hsingle⟩ := h.1
    intro rest
    rw [List.cons_append, takeTag, if_neg hgt, if_neg (by simp [hdouble, hsingle]), ih h.2]
    cases takeTag none rest <;> rfl

theorem takeTag_quoted {quote : Char} {s : List Char} (h : quote ∉ s) (rest : List Char) :
    takeTag (some quote) (s ++ quote :: rest) =
      (takeTag none rest).map fun p => (s ++ quote :: p.1, p.2) := by
  induction s with
  | nil => simp [takeTag]
  | cons c s ih =>
    rw [List.mem_cons, not_or] at h
    rw [List.cons_append, takeTag, if_neg (Ne.symm h.1), ih h.2]
    cases takeTag none rest <;> rfl

theorem inside_quoted {quote : Char} (hquote : quote = '"' ∨ quote = '\'') {s : List Char}
    (h : quote ∉ s) : Inside (quote :: (s ++ [quote])) := by
  have hne : quote ≠ '>' := by
    rcases hquote with rfl | rfl <;> decide
  intro rest
  rw [List.cons_append, List.append_assoc, List.singleton_append, takeTag, if_neg hne,
    if_pos hquote, takeTag_quoted h]
  cases takeTag none rest <;> simp

theorem toList_attributeText (attr : String × String) :
    (attributeText attr).toList =
      ' ' :: (attr.1.toList ++ '=' :: '"' :: (escape attr.2.toList ++ ['"'])) := by
  simp [attributeText, escaped]

theorem toList_tagText (name : String) (attributes : List (String × String)) :
    (tagText name attributes).toList =
      name.toList ++ attributes.flatMap fun attr => (attributeText attr).toList := by
  rw [tagText, String.toList_append]
  congr 1
  induction attributes with
  | nil => rfl
  | cons attr rest ih => simp [String.join_cons, ih]

theorem inside_attributeText {attr : String × String} (h : IsPlain attr.1.toList) :
    Inside (attributeText attr).toList := by
  have hfirst : Inside (' ' :: (attr.1.toList ++ ['='])) := by
    refine inside_plain fun c hc => ?_
    simp only [List.mem_cons, List.mem_append, List.not_mem_nil, or_false] at hc
    rcases hc with rfl | hc | rfl
    · decide
    · exact ⟨h.ne hc (by decide), h.ne hc (by decide), h.ne hc (by decide)⟩
    · decide
  have hvalue := inside_quoted (.inl rfl) (not_mem_escape (c := '"') (by decide) attr.2.toList)
  rw [toList_attributeText]
  simpa using hfirst.append hvalue

theorem inside_tagText {name : String} {attributes : List (String × String)}
    (hname : IsPlain name.toList) (hkeys : ∀ attr ∈ attributes, IsPlain attr.1.toList) :
    Inside (tagText name attributes).toList := by
  rw [toList_tagText]
  refine (inside_plain fun c hc => ⟨hname.ne hc (by decide), hname.ne hc (by decide),
    hname.ne hc (by decide)⟩).append ?_
  induction attributes with
  | nil => exact inside_plain (by simp)
  | cons attr rest ih =>
    rw [List.forall_mem_cons] at hkeys
    rw [List.flatMap_cons]
    exact (inside_attributeText hkeys.1).append (ih hkeys.2)

/-! ## Names and attributes of a tag -/

theorem tagName_tagText {name : String} (attributes : List (String × String))
    (hname : IsPlain name.toList) : tagName (tagText name attributes).toList = name.toList := by
  rw [tagName, toList_tagText]
  refine Text.takeWhile_span (fun c hc => by rw [hname.not_blank hc]; rfl) ?_
  cases attributes with
  | nil => exact Text.stopsAt_nil
  | cons attr rest =>
    rw [List.flatMap_cons, toList_attributeText]
    exact Text.stopsAt_cons rfl

/-- One attribute is read off the front, if its key is new. Every match of the reader is settled by
what the attribute begins with. -/
theorem readAttributes_append {seen : List (List Char)} {gap key before after raw : List Char}
    {quote : Char} (hgap : ∀ c ∈ gap, Text.isXmlBlank c = true) (hkey : IsPlain key)
    (hne : key ≠ []) (hbefore : ∀ c ∈ before, Text.isXmlBlank c = true)
    (hafter : ∀ c ∈ after, Text.isXmlBlank c = true) (hquote : quote = '"' ∨ quote = '\'')
    (hraw : quote ∉ raw) (rest : List Char) :
    readAttributes seen
        (gap ++ (key ++ (before ++ '=' :: (after ++ quote :: (raw ++ quote :: rest))))) =
      if key ∈ seen then none
      else (unescape raw).bind fun data =>
        (readAttributes (key :: seen) rest).map ((String.ofList key, String.ofList data) :: ·) := by
  obtain ⟨first, more, rfl⟩ := List.exists_cons_of_ne_nil hne
  have hstart : ∀ s, (gap ++ first :: s).dropWhile Text.isXmlBlank = first :: s := fun s =>
    Text.dropWhile_span hgap (Text.stopsAt_cons (hkey.not_blank List.mem_cons_self))
  have hmore : ∀ c ∈ more, (c != '=' && !Text.isXmlBlank c) = true := by
    intro c hc
    have hc := List.mem_cons_of_mem first hc
    rw [hkey.not_blank hc, bne_iff_ne.2 (hkey.ne hc (by decide))]
    rfl
  have hstop : Text.StopsAt (fun c => c != '=' && !Text.isXmlBlank c)
      (before ++ '=' :: (after ++ quote :: (raw ++ quote :: rest))) := by
    intro c hc
    cases before with
    | nil =>
      cases hc
      rfl
    | cons b before =>
      cases hc
      simp [hbefore _ List.mem_cons_self]
  have htake := Text.takeWhile_span hmore hstop
  have hdrop := Text.dropWhile_span hmore hstop
  have hequals : ∀ s, (before ++ '=' :: s).dropWhile Text.isXmlBlank = '=' :: s := fun s =>
    Text.dropWhile_span hbefore (Text.stopsAt_cons rfl)
  have hopen : ∀ s, (after ++ quote :: s).dropWhile Text.isXmlBlank = quote :: s := fun s =>
    Text.dropWhile_span hafter (Text.stopsAt_cons (by rcases hquote with rfl | rfl <;> rfl))
  rw [List.cons_append, readAttributes]
  split
  · rename_i hnil
    rw [hstart] at hnil
    cases hnil
  · rename_i first' more' hs
    rw [hstart] at hs
    cases hs
    simp only [htake]
    split
    · rename_i value hvalue
      rw [hdrop, hequals] at hvalue
      cases hvalue
      by_cases hseen : first :: more ∈ seen
      · rw [if_pos (by simpa using hseen), if_pos hseen]
      · rw [if_neg (by simpa using hseen), if_neg hseen]
        split
        · rename_i quote' quoted hquoted
          rw [hopen] at hquoted
          cases hquoted
          rw [if_pos hquote]
          split
          · rename_i raw' after' hsplit
            rw [Text.splitOnce_append rest hraw] at hsplit
            cases hsplit
            cases unescape raw with
            | none => rfl
            | some data => cases readAttributes ((first :: more) :: seen) rest <;> rfl
          · rename_i hnone
            rw [Text.splitOnce_append rest hraw] at hnone
            cases hnone
        · rename_i hnone
          rw [hopen] at hnone
          cases hnone
    · rename_i hnone
      refine absurd ?_ (hnone (after ++ quote :: (raw ++ quote :: rest)))
      rw [hdrop, hequals]

/-- The attributes of a tag are read as they were written. -/
theorem readAttributes_written (seen : List (List Char)) {attributes : List (String × String)}
    (hnames : ∀ attr ∈ attributes, IsName attr.1) (hnodup : (attributes.map (·.1)).Nodup)
    (hseen : ∀ attr ∈ attributes, attr.1.toList ∉ seen) :
    readAttributes seen (attributes.flatMap fun attr => (attributeText attr).toList) =
      some attributes := by
  induction attributes generalizing seen with
  | nil => rw [List.flatMap_nil, readAttributes]; rfl
  | cons attr rest ih =>
    rw [List.forall_mem_cons] at hnames hseen
    rw [List.map_cons, List.nodup_cons] at hnodup
    have hrest : ∀ other ∈ rest, other.1.toList ∉ attr.1.toList :: seen := by
      intro other hother hmem
      rcases List.mem_cons.1 hmem with heq | hmem
      · exact hnodup.1 (List.mem_map.2 ⟨other, hother, String.toList_inj.1 heq⟩)
      · exact hseen.2 other hother hmem
    have hwritten : (attr :: rest).flatMap (fun attr => (attributeText attr).toList) =
        ' ' :: (attr.1.toList ++ '=' :: '"' :: (escape attr.2.toList ++
          '"' :: rest.flatMap fun attr => (attributeText attr).toList)) := by
      simp [toList_attributeText]
    have hgap : ∀ c ∈ [' '], Text.isXmlBlank c = true := fun c hc => by
      rw [List.mem_singleton.1 hc]
      rfl
    rw [hwritten, show ∀ s : List Char, ' ' :: s = [' '] ++ s from fun _ => rfl,
      show ∀ s : List Char, attr.1.toList ++ '=' :: '"' :: s =
        attr.1.toList ++ ([] ++ '=' :: ([] ++ '"' :: s)) from fun _ => rfl,
      readAttributes_append hgap hnames.1.plain (by simpa using hnames.1.1) (by simp)
        (by simp) (.inl rfl) (not_mem_escape (by decide) _), if_neg hseen.1, unescape_escape,
      Option.bind_some, ih _ hnames.2 hnodup.2 hrest]
    simp

/-! ## Markup of single pieces -/

theorem readMarkup_tag {c : Char} {rest : List Char} (h : isMark c = false) :
    readMarkup (c :: rest) = (takeTag none (c :: rest)).map fun p =>
      if p.1.getLast? = some '/' then (.empty p.1.dropLast, p.2) else (.opening p.1, p.2) := by
  have hne : ∀ m, isMark m = true → c ≠ m := by
    rintro m hm rfl
    rw [h] at hm
    cases hm
  rw [readMarkup.eq_4 (c :: rest) (by simp [hne '!' (by decide)]) (by simp [hne '/' (by decide)])
    (by simp [hne '?' (by decide)])]
  cases takeTag none (c :: rest) with
  | none => rfl
  | some p =>
    obtain ⟨inside, after⟩ := p
    show (if inside.getLast? = some '/' then some _ else some _) = some (if _ then _ else _)
    split <;> rfl

theorem scan_markup {s after : List Char} {m : Markup} (h : readMarkup s = some (m, after)) :
    scan ('<' :: s) = m :: scan after := by
  have hne : s.isEmpty = false := by
    cases s with
    | nil => simp [readMarkup, takeTag] at h
    | cons c rest => rfl
  rw [scan, hne, if_neg Bool.false_ne_true]
  split
  · rename_i m' after' h'
    rw [h] at h'
    cases h'
    rfl
  · rename_i hnone
    rw [h] at hnone
    cases hnone

/-- Character data is one piece up to the next markup. -/
theorem scan_text {data rest : List Char} (hne : data ≠ []) (hdata : '<' ∉ data)
    (hrest : Text.StopsAt (· != '<') rest) : scan (data ++ rest) = .text data :: scan rest := by
  obtain ⟨c, more, rfl⟩ := List.exists_cons_of_ne_nil hne
  rw [List.mem_cons, not_or] at hdata
  have hmore : ∀ c ∈ more, (c != '<') = true := by
    rintro c hc
    rw [bne_iff_ne]
    rintro rfl
    exact hdata.2 hc
  rw [List.cons_append, scan, Text.takeWhile_span hmore hrest, Text.dropWhile_span hmore hrest]
  exact fun heq => hdata.1 heq.symm

variable {name : String} {attributes : List (String × String)}

/-- A written tag does not end with a slash of its own. -/
theorem getLast?_tagText (hname : IsName name) :
    (tagText name attributes).toList.getLast? ≠ some '/' := by
  rw [toList_tagText]
  rcases List.eq_nil_or_concat attributes with rfl | ⟨init, attr, rfl⟩
  · intro h
    rw [List.flatMap_nil, List.append_nil] at h
    exact hname.plain.ne (List.mem_of_getLast? h) (by decide) rfl
  · obtain ⟨front, hfront⟩ : ∃ front, (attributeText attr).toList = front ++ ['"'] :=
      ⟨' ' :: (attr.1.toList ++ '=' :: '"' :: escape attr.2.toList), by simp [toList_attributeText]⟩
    rw [List.concat_eq_append, List.flatMap_append, List.flatMap_singleton, ← List.append_assoc,
      hfront, ← List.append_assoc, List.getLast?_concat]
    decide

/-- The reader takes a tag up to its angle bracket; `close` is what else stands before it. -/
theorem readMarkup_tagText (hname : IsName name) (hattributes : AreAttributes attributes)
    {close : List Char} (hclose : Inside close) (after : List Char) :
    readMarkup ((tagText name attributes).toList ++ (close ++ '>' :: after)) =
      some (if ((tagText name attributes).toList ++ close).getLast? = some '/'
        then .empty ((tagText name attributes).toList ++ close).dropLast
        else .opening ((tagText name attributes).toList ++ close), after) := by
  obtain ⟨c, rest, hc, hmark⟩ := hname.cons
  have hinside := (inside_tagText hname.plain fun attr hattr =>
    (hattributes.names attr hattr).plain).append hclose
  have htag := hinside ('>' :: after)
  rw [List.append_assoc] at htag
  generalize hwritten : (tagText name attributes).toList = written at htag ⊢
  obtain ⟨more, rfl⟩ : ∃ more, written = c :: more :=
    ⟨_, by rw [← hwritten, toList_tagText, hc, List.cons_append]⟩
  rw [List.cons_append, readMarkup_tag hmark, ← List.cons_append, htag]
  simp only [takeTag, if_true, Option.map_some, List.append_nil]
  split <;> rfl

theorem scan_opening (hname : IsName name) (hattributes : AreAttributes attributes)
    (after : List Char) :
    scan ((Piece.opening name attributes).written.toList ++ after) =
      .opening (tagText name attributes).toList :: scan after := by
  have hwritten : (Piece.opening name attributes).written.toList ++ after =
      '<' :: ((tagText name attributes).toList ++ ([] ++ '>' :: after)) := by
    simp [Piece.written]
  rw [hwritten]
  refine scan_markup ?_
  rw [readMarkup_tagText hname hattributes (inside_plain (by simp)), List.append_nil,
    if_neg (getLast?_tagText hname)]

theorem scan_empty (hname : IsName name) (hattributes : AreAttributes attributes)
    (after : List Char) :
    scan ((Piece.empty name attributes).written.toList ++ after) =
      .empty (tagText name attributes).toList :: scan after := by
  have hwritten : (Piece.empty name attributes).written.toList ++ after =
      '<' :: ((tagText name attributes).toList ++ (['/'] ++ '>' :: after)) := by
    simp [Piece.written]
  rw [hwritten]
  refine scan_markup ?_
  rw [readMarkup_tagText hname hattributes (inside_plain (by simp)), if_pos List.getLast?_concat,
    List.dropLast_concat]

theorem closingName_eq {name : List Char} (hname : IsPlain name) : closingName name = name := by
  have hfiller : ∀ c ∈ name, (Text.isXmlBlank c || c == '\x0c') = false := by
    intro c hc
    rw [hname.not_blank hc, beq_eq_false_iff_ne.2 (hname.ne hc (by decide))]
    rfl
  have hstop : Text.StopsAt (fun c => Text.isXmlBlank c || c == '\x0c') name.reverse := by
    intro c hc
    exact hfiller c (List.mem_reverse.1 (List.mem_of_head? hc))
  simp only [closingName]
  split
  · rfl
  · rw [Text.dropWhile_of_stopsAt hstop, List.reverse_reverse]

theorem scan_closing (hname : IsPlain name.toList) (after : List Char) :
    scan ((Piece.closing name).written.toList ++ after) = .closing name.toList :: scan after := by
  have hwritten : (Piece.closing name).written.toList ++ after =
      '<' :: '/' :: (name.toList ++ '>' :: after) := by
    simp [Piece.written]
  rw [hwritten]
  refine scan_markup ?_
  rw [readMarkup, Text.cut_append after fun hmem => hname.ne hmem (by decide) rfl]
  simp only
  rw [closingName_eq hname]

theorem scan_declaration (after : List Char) :
    scan (Piece.declaration.written.toList ++ after) = .passed :: scan after := by
  have hwritten : Piece.declaration.written.toList ++ after =
      '<' :: '?' :: ("xml version=\"1.0\" encoding=\"UTF-8\"?".toList ++ '>' :: after) := by
    simp [Piece.written]
  rw [hwritten]
  refine scan_markup ?_
  rw [readMarkup, ← List.cons_append, Text.cut_append after (by decide)]
  rfl

/-! ## Pieces one after the other -/

/-- What a piece does to a reading. -/
def Reading.take (r : Reading) : Piece → Except ParseError Reading
  | .declaration => .ok r
  | .opening name attributes =>
    return ⟨← r.assembly.openRaw name attributes, name.toList :: r.openNames⟩
  | .empty name attributes => do
    let opened ← r.assembly.openRaw name attributes
    return { r with assembly := ← opened.close name }
  | .closing name =>
    match r.openNames with
    | [] => .error .malformed
    | top :: outer =>
      if top = name.toList then return ⟨← r.assembly.close name, outer⟩ else .error .malformed
  | .text data => return { r with assembly := ← r.assembly.addText data }
  | .verbatim _ => .error .malformed

theorem Reading.openElement_tagText (r : Reading) (hname : IsName name)
    (hattributes : AreAttributes attributes) :
    r.openElement (tagText name attributes).toList = r.assembly.openRaw name attributes := by
  have hread := readAttributes_written [] hattributes.names hattributes.nodup (by simp)
  have hdrop : (tagText name attributes).toList.drop name.toList.length =
      attributes.flatMap fun attr => (attributeText attr).toList := by
    rw [toList_tagText, List.drop_left]
  simp only [Reading.openElement]
  rw [tagName_tagText attributes hname.plain, hdrop, hread, String.ofList_toList]

/-- A tag is one piece of markup, which does to a reading what the tag stands for. -/
theorem scan_written {piece : Piece} (h : piece.Readable) (hdata : piece.isData = false)
    (after : List Char) :
    ∃ m, scan (piece.written.toList ++ after) = m :: scan after ∧
      ∀ r : Reading, r.step m = r.take piece := by
  cases piece with
  | declaration => exact ⟨_, scan_declaration after, fun r => rfl⟩
  | opening name attributes =>
    refine ⟨_, scan_opening h.1 h.2 after, fun r => ?_⟩
    rw [Reading.step, r.openElement_tagText h.1 h.2, tagName_tagText attributes h.1.plain]
    rfl
  | empty name attributes =>
    refine ⟨_, scan_empty h.1 h.2 after, fun r => ?_⟩
    rw [Reading.step, r.openElement_tagText h.1 h.2, tagName_tagText attributes h.1.plain,
      String.ofList_toList]
    rfl
  | closing name =>
    refine ⟨_, scan_closing h.plain after, fun r => ?_⟩
    rw [Reading.step, String.ofList_toList]
    rfl
  | text data => cases hdata
  | verbatim markup => cases hdata

theorem step_text (r : Reading) (data : String) :
    r.step (.text (escape data.toList)) = r.take (.text data) := by
  rw [Reading.step, unescape_escape]
  simp only
  rw [String.ofList_toList]
  rfl

/-- Blanks between tags leave no trace. -/
theorem step_blank {raw : List Char} (hraw : ∀ c ∈ raw, Text.isXmlBlank c = true)
    (r : Reading) : r.step (.text raw) = .ok r := by
  have hplain : '&' ∉ raw := fun hmem => absurd (hraw _ hmem) (by decide)
  have hblank : Text.isAllBlank (String.ofList raw) = true := by
    rw [Text.isAllBlank, String.toList_ofList, List.all_eq_true]
    exact fun c hc => Text.isBlank_of_isXmlBlank (hraw c hc)
  rw [Reading.step, unescape_of_not_mem hplain]
  simp only
  rw [Assembly.addText_blank hblank]
  rfl

theorem step_lineBreak (r : Reading) (depth : Nat) :
    r.step (.text (Piece.lineBreak depth).toList) = .ok r := by
  refine step_blank (fun c hc => ?_) r
  have hc : c = '\n' ∨ c = ' ' := by
    simp only [Piece.lineBreak, String.toList_append, String.toList_ofList, List.mem_append,
      List.mem_replicate] at hc
    exact hc.imp List.mem_singleton.1 And.right
  rcases hc with rfl | rfl <;> decide

/-- What stands between two tags. -/
theorem scan_lead {rest : List Char} (depth : Nat) (hrest : Text.StopsAt (· != '<') rest) :
    scan ((Piece.lineBreak depth).toList ++ rest) =
      .text (Piece.lineBreak depth).toList :: scan rest :=
  scan_text (by simp [Piece.lineBreak]) (by simp [Piece.lineBreak]) hrest

theorem stopsAt_written {piece : Piece} (hdata : piece.isData = false) (after : List Char) :
    Text.StopsAt (· != '<') (piece.written.toList ++ after) := by
  cases piece with
  | text data => cases hdata
  | verbatim markup => cases hdata
  | _ => simp [Piece.written, Text.StopsAt]

/-- After data a layout goes on with a tag or ends. -/
theorem stopsAt_layout {pieces : List Piece} (depth : Nat)
    (h : ∀ piece ∈ pieces.head?, piece.isData = false) :
    Text.StopsAt (· != '<') (Piece.layout depth true pieces).toList := by
  cases pieces with
  | nil => exact Text.stopsAt_nil
  | cons piece rest =>
    rw [Piece.layout]
    simpa using stopsAt_written (h piece rfl) _

/-- Reading a layout is taking its pieces in order. -/
theorem foldlM_layout {pieces : List Piece} (hreadable : ∀ piece ∈ pieces, piece.Readable)
    (hapart : pieces.IsChain Piece.Apart) (depth : Nat) (fresh : Bool) (r : Reading) :
    (scan (Piece.layout depth fresh pieces).toList).foldlM Reading.step r =
      pieces.foldlM Reading.take r := by
  induction pieces generalizing depth fresh r with
  | nil =>
    rw [Piece.layout, String.toList_empty, scan]
    rfl
  | cons piece rest ih =>
    rw [List.forall_mem_cons] at hreadable
    rw [List.isChain_cons] at hapart
    have hrest : ∀ depth fresh, (fun r' => (scan (Piece.layout depth fresh rest).toList).foldlM
        Reading.step r') = fun r' => rest.foldlM Reading.take r' :=
      fun depth fresh => funext fun r' => ih hreadable.2 hapart.2 depth fresh r'
    rw [List.foldlM_cons, ← hrest (piece.depths depth).2 piece.isData]
    cases hdata : piece.isData with
    | true =>
      obtain ⟨data, rfl⟩ : ∃ data, piece = .text data := by
        cases piece with
        | text data => exact ⟨data, rfl⟩
        | verbatim markup => exact hreadable.1.elim
        | _ => cases hdata
      have hnext : ∀ piece ∈ rest.head?, piece.isData = false := fun piece hpiece =>
        (hapart.1 piece hpiece).resolve_left (by simp [Piece.isData])
      have hwritten : (Piece.layout depth fresh (.text data :: rest)).toList =
          escape data.toList ++ (Piece.layout depth true rest).toList := by
        rw [Piece.layout]
        simp [Piece.isData, Piece.written, Piece.depths, escaped]
      rw [hwritten]
      by_cases hempty : data.toList = []
      · have htake : r.take (.text data) = .ok r := by
          rw [Reading.take, Assembly.addText_blank (by simp [Text.isAllBlank, hempty])]
          rfl
        rw [hempty, htake]
        rfl
      · rw [scan_text (escape_eq_nil_iff.not.2 hempty) (not_mem_escape (by decide) _)
          (stopsAt_layout depth hnext), List.foldlM_cons, step_text]
        rfl
    | false =>
      obtain ⟨m, hm, hstep⟩ := scan_written hreadable.1 hdata
        (Piece.layout (piece.depths depth).2 false rest).toList
      have htag : (scan (piece.written.toList ++
          (Piece.layout (piece.depths depth).2 false rest).toList)).foldlM Reading.step r =
            r.take piece >>= fun r' => (scan (Piece.layout (piece.depths depth).2 false
              rest).toList).foldlM Reading.step r' := by
        rw [hm, List.foldlM_cons, hstep]
      cases fresh with
      | true =>
        rw [← htag, Piece.layout]
        simp [hdata]
      | false =>
        rw [← htag, Piece.layout]
        simp only [hdata, Bool.or_self, Bool.false_eq_true, if_false]
        rw [String.toList_append, String.toList_append, List.append_assoc,
          scan_lead _ (stopsAt_written hdata _), List.foldlM_cons, step_lineBreak]
        rfl

end Lenient

end SoapKit.Xml
