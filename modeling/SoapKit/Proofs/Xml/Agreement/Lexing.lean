import SoapKit.Proofs.Xml.Layout
import SoapKit.Xml.Strict

/-!
# The shape of strict markup

Each part of the strict grammar is turned into the shape of the text that it accepts
(`Strict.takeName_shape`, `Strict.takeAttributes_shape`, `Strict.takeTo_shape`). The lenient reader
is then run on texts of that shape: it finds the same markup there, with the same name and the same
attributes (`Lenient.readMarkup_shape`, `Lenient.readAttributes_shape`).

An instruction is the one kind of markup at which the lenient reader may fail, as it ends an
instruction at the first closing angle bracket, whatever stands before it.
-/

namespace SoapKit.Xml

open Text (isXmlBlank)

/-! ## Names -/

/-- What is written for a name. Before a name without a qualifier there may be a colon. -/
structure Spells (written : List Char) (name : Name) : Prop where
  written : written = name.text.toList ∨ name.qualifier = none ∧ written = ':' :: name.base.toList
  base : name.base ≠ "" ∧ ∀ c ∈ name.base.toList, Strict.isNameChar c = true
  qualifier : ∀ qualifier, name.qualifier = some qualifier →
    ∀ c ∈ qualifier.toList, Strict.isNameChar c = true

namespace Spells

variable {written : List Char} {name : Name}

theorem ne_nil (h : Spells written name) : written ≠ [] := by
  rcases h.written with rfl | ⟨-, rfl⟩
  · intro hnil
    have hbase : name.base.toList ≠ [] := by simpa using h.base.1
    rw [Name.text] at hnil
    split at hnil
    · simp at hnil
    · exact hbase hnil
  · simp

theorem isName (h : Spells written name) : ∀ c ∈ written, isNameChar c = true := by
  have hstrict : ∀ c, Strict.isNameChar c = true → isNameChar c = true := by
    intro c hc
    rw [isNameChar, hc, Bool.or_true, Bool.true_or]
  have hcolon : isNameChar ':' = true := by
    rw [isNameChar]
    simp
  have hbase : ∀ c ∈ name.base.toList, isNameChar c = true :=
    fun c hc => hstrict c (h.base.2 c hc)
  intro c hc
  rcases h.written with rfl | ⟨-, rfl⟩
  · rw [Name.text] at hc
    split at hc
    · rename_i qualifier hqualifier
      rw [String.toList_append, String.toList_append, List.mem_append, List.mem_append] at hc
      rcases hc with (hc | hc) | hc
      · exact hstrict c (h.qualifier qualifier hqualifier c hc)
      · rw [List.mem_singleton.1 hc]
        exact hcolon
      · exact hbase c hc
    · exact hbase c hc
  · rcases List.mem_cons.1 hc with rfl | hc
    · exact hcolon
    · exact hbase c hc

theorem isPlain (h : Spells written name) : IsPlain written :=
  fun c hc => isMark_of_isNameChar (h.isName c hc)

end Spells

namespace Strict

theorem mem_takeWhile {p : Char → Bool} {s : List Char} {c : Char} (h : c ∈ s.takeWhile p) :
    p c = true :=
  List.all_eq_true.1 List.all_takeWhile c h

theorem takeName_shape {s rest : List Char} {name : Name} (h : takeName s = some (name, rest)) :
    ∃ written, Spells written name ∧ s = written ++ rest := by
  have hs := List.takeWhile_append_dropWhile (p := isNameChar) (l := s)
  have hne : ∀ part : List Char, (part.head?.any isNameStart) = true → String.ofList part ≠ "" := by
    rintro part hbegins heq
    have hpart : part = [] := by simpa using congrArg String.toList heq
    rw [hpart] at hbegins
    cases hbegins
  unfold takeName at h
  simp only at h
  split at h
  · rename_i after hafter
    split at h
    · rename_i hbegins
      cases h
      rw [Bool.and_eq_true] at hbegins
      have hbase : String.ofList (after.takeWhile isNameChar) ≠ "" ∧
          ∀ c ∈ (String.ofList (after.takeWhile isNameChar)).toList, isNameChar c = true :=
        ⟨hne _ hbegins.2, fun c hc => mem_takeWhile (by simpa using hc)⟩
      have hwhole : s = s.takeWhile isNameChar ++ ':' :: (after.takeWhile isNameChar ++
          after.dropWhile isNameChar) := by
        rw [List.takeWhile_append_dropWhile, ← hafter, hs]
      split
      · rename_i hempty
        rw [List.isEmpty_iff.1 hempty, List.nil_append] at hwhole
        exact ⟨':' :: after.takeWhile isNameChar, ⟨.inr ⟨rfl, by simp⟩, hbase, by simp⟩, hwhole⟩
      · refine ⟨s.takeWhile isNameChar ++ ':' :: after.takeWhile isNameChar,
          ⟨.inl (by simp [Name.text]), hbase, ?_⟩, by rw [List.append_assoc]; exact hwhole⟩
        rintro qualifier heq c hc
        cases heq
        exact mem_takeWhile (by simpa using hc)
    · cases h
  · split at h
    · rename_i hbegins
      cases h
      exact ⟨s.takeWhile isNameChar, ⟨.inl (by simp [Name.text]), ⟨hne _ hbegins, fun c hc =>
        mem_takeWhile (by simpa using hc)⟩, by simp⟩, hs.symm⟩
    · cases h

/-! ## Texts up to a mark -/

/-- What is taken ends where the rest is to stop first. -/
theorem takeChars_shape {stop : List Char → Bool} {s taken rest : List Char}
    (h : takeChars stop s = some (taken, rest)) :
    s = taken ++ rest ∧ (∀ p q, taken = p ++ q → q ≠ [] → stop (q ++ rest) = false) ∧
      (rest = [] ∨ stop rest = true) := by
  induction s generalizing taken with
  | nil =>
    cases h
    exact ⟨rfl, by simp, .inl rfl⟩
  | cons c s ih =>
    rw [takeChars] at h
    split at h
    · cases h
    · split at h
      · rename_i hstop
        cases h
        exact ⟨rfl, by simp, .inr hstop⟩
      · rename_i hstop
        obtain ⟨⟨taken', rest'⟩, htaken, heq⟩ := Option.map_eq_some_iff.1 h
        cases heq
        obtain ⟨rfl, hfirst, hrest⟩ := ih htaken
        refine ⟨rfl, fun p q hpq hq => ?_, hrest⟩
        cases p with
        | nil =>
          rw [← show c :: taken' = q from hpq]
          simpa using hstop
        | cons d p => exact hfirst p q (List.cons.inj hpq).2 hq

/-- A text up to the first mark. -/
structure UpTo (mark taken rest s : List Char) : Prop where
  text : s = taken ++ (mark ++ rest)
  first : ∀ p q, taken = p ++ q → q ≠ [] → ¬ mark <+: q ++ (mark ++ rest)

theorem takeTo_shape {mark : String} {s taken rest : List Char}
    (h : takeTo mark s = some (taken, rest)) : UpTo mark.toList taken rest s := by
  obtain ⟨⟨taken', rest'⟩, htaken, h⟩ := Option.bind_eq_some_iff.1 h
  obtain ⟨after, hafter, h⟩ := Option.bind_eq_some_iff.1 h
  cases h
  obtain ⟨htext, hfirst, -⟩ := takeChars_shape htaken
  obtain rfl := Text.eq_append_of_after? hafter
  refine ⟨htext, fun p q hpq hq hmark => ?_⟩
  have hstop := hfirst p q hpq hq
  rw [List.isPrefixOf_iff_prefix.2 hmark] at hstop
  cases hstop

/-- No mark stands further in front than the first one. -/
theorem UpTo.length_le {mark taken rest s : List Char} (h : UpTo mark taken rest s)
    {before after : List Char} (hs : s = before ++ (mark ++ after)) :
    taken.length ≤ before.length := by
  by_contra hlt
  obtain ⟨q, rfl⟩ := Text.prefix_of_append_eq (hs.symm.trans h.text) (by omega)
  refine h.first before q rfl ?_ ?_
  · rintro rfl
    simp at hlt
  · have heq : q ++ (mark ++ rest) = mark ++ after := by
      have := h.text.symm.trans hs
      rwa [List.append_assoc, List.append_cancel_left_eq] at this
    exact ⟨after, heq.symm⟩

/-- The blanks in front of a text. -/
theorem exists_gap (s : List Char) :
    ∃ gap, (∀ c ∈ gap, isXmlBlank c = true) ∧ s = gap ++ s.dropWhile isXmlBlank ∧
      (s.head?.any isXmlBlank = true → gap ≠ []) := by
  refine ⟨s.takeWhile isXmlBlank, fun c hc => mem_takeWhile hc,
    List.takeWhile_append_dropWhile.symm, fun hblank => ?_⟩
  cases s with
  | nil => cases hblank
  | cons c s => simp [show isXmlBlank c = true by simpa using hblank]

/-! ## Attributes -/

/-- Attributes as they stand in a tag. -/
inductive AttributesText : List Char → List (Name × List Char) → Prop
  | nil {gap : List Char} : (∀ c ∈ gap, isXmlBlank c = true) → AttributesText gap []
  | cons {gap key before after raw more : List Char} {quote : Char} {name : Name}
      {attributes : List (Name × List Char)} :
      gap ≠ [] → (∀ c ∈ gap, isXmlBlank c = true) → Spells key name →
      (∀ c ∈ before, isXmlBlank c = true) → (∀ c ∈ after, isXmlBlank c = true) →
      quote = '"' ∨ quote = '\'' → quote ∉ raw → AttributesText more attributes →
      AttributesText (gap ++ (key ++ (before ++ '=' :: (after ++ quote :: (raw ++ quote :: more)))))
        ((name, raw) :: attributes)

theorem takeAttribute_shape {s rest raw : List Char} {name : Name}
    (h : takeAttribute s = some ((name, raw), rest)) :
    ∃ key before after quote, Spells key name ∧ (∀ c ∈ before, isXmlBlank c = true) ∧
      (∀ c ∈ after, isXmlBlank c = true) ∧ (quote = '"' ∨ quote = '\'') ∧ quote ∉ raw ∧
      '<' ∉ raw ∧ s = key ++ (before ++ '=' :: (after ++ quote :: (raw ++ quote :: rest))) := by
  obtain ⟨⟨name', rest₁⟩, hname, h⟩ := Option.bind_eq_some_iff.1 h
  obtain ⟨rest₂, hequals, h⟩ := Option.bind_eq_some_iff.1 h
  obtain ⟨key, hkey, hs⟩ := takeName_shape hname
  obtain ⟨before, hbefore, hrest₁, -⟩ := exists_gap rest₁
  obtain ⟨after, hafter, hrest₂, -⟩ := exists_gap rest₂
  rw [Text.eq_append_of_after? hequals] at hrest₁
  split at h
  · rename_i quote rest₃ hquoted
    rw [hquoted] at hrest₂
    split at h
    · rename_i hquote
      obtain ⟨⟨value, rest₄⟩, hvalue, h⟩ := Option.bind_eq_some_iff.1 h
      obtain ⟨rest₅, hend, h⟩ := Option.bind_eq_some_iff.1 h
      cases h
      obtain ⟨rfl, hfirst, -⟩ := takeChars_shape hvalue
      obtain rfl := Text.eq_append_of_after? hend
      have hnot : ∀ c ∈ raw, c ≠ quote ∧ c ≠ '<' := by
        intro c hc
        obtain ⟨p, q, rfl⟩ := List.append_of_mem hc
        simpa using hfirst p (c :: q) rfl (by simp)
      refine ⟨key, before, after, quote, hkey, hbefore, hafter, hquote,
        fun hmem => (hnot _ hmem).1 rfl, fun hmem => (hnot _ hmem).2 rfl, ?_⟩
      rw [hs, hrest₁, hrest₂]
      simp
    · cases h
  · cases h

/-- The end of a tag, behind its attributes. -/
def tagEnd (empty : Bool) : List Char :=
  if empty then ['/', '>'] else ['>']

theorem takeAttributes_shape {steps : Nat} {s rest : List Char}
    {attributes : List (Name × List Char)} {empty : Bool}
    (h : takeAttributes steps s = some ((attributes, empty), rest)) :
    ∃ inside, AttributesText inside attributes ∧ s = inside ++ (tagEnd empty ++ rest) := by
  induction steps generalizing s attributes with
  | zero => cases h
  | succ steps ih =>
    obtain ⟨gap, hgap, hs, hne⟩ := exists_gap s
    rw [takeAttributes] at h
    split at h
    · rename_i after hafter
      cases h
      rw [hafter] at hs
      exact ⟨gap, .nil hgap, hs⟩
    · rename_i after hafter
      cases h
      rw [hafter] at hs
      exact ⟨gap, .nil hgap, hs⟩
    · split at h
      · rename_i hblank
        obtain ⟨⟨⟨name, raw⟩, rest₁⟩, hattr, h⟩ := Option.bind_eq_some_iff.1 h
        obtain ⟨⟨⟨others, empty'⟩, rest₂⟩, hothers, h⟩ := Option.bind_eq_some_iff.1 h
        cases h
        obtain ⟨key, before, after, quote, hkey, hbefore, hafter, hquote, hraw, -, hdrop⟩ :=
          takeAttribute_shape hattr
        obtain ⟨inside, hinside, rfl⟩ := ih hothers
        refine ⟨_, .cons (hne hblank) hgap hkey hbefore hafter hquote hraw hinside, ?_⟩
        rw [hdrop] at hs
        rw [hs]
        simp
      · cases h

end Strict

/-! ## Tags for the lenient reader -/

namespace Lenient

open Strict (AttributesText tagEnd)

variable {inside : List Char} {attributes : List (Name × List Char)}

theorem blank_ne {gap : List Char} (h : ∀ c ∈ gap, isXmlBlank c = true) {c m : Char}
    (hc : c ∈ gap) (hm : isXmlBlank m = false) : c ≠ m := by
  rintro rfl
  rw [h c hc] at hm
  cases hm

theorem inside_blank {gap : List Char} (h : ∀ c ∈ gap, isXmlBlank c = true) : Inside gap :=
  inside_plain fun _ hc => ⟨blank_ne h hc rfl, blank_ne h hc rfl, blank_ne h hc rfl⟩

theorem inside_isPlain {s : List Char} (h : IsPlain s) : Inside s :=
  inside_plain fun _ hc => ⟨h.ne hc (by decide), h.ne hc (by decide), h.ne hc (by decide)⟩

theorem inside_attributesText (h : AttributesText inside attributes) : Inside inside := by
  induction h with
  | nil hgap => exact inside_blank hgap
  | @cons gap key before after raw more quote name attributes _ hgap hkey hbefore hafter hquote hraw
      _ ih =>
    have hequals : Inside ['='] := inside_plain (by simp)
    have hwhole := (inside_blank hgap).append ((inside_isPlain hkey.isPlain).append
      ((inside_blank hbefore).append (hequals.append ((inside_blank hafter).append
        ((inside_quoted hquote hraw).append ih)))))
    simpa using hwhole

/-- A name ends before attributes. -/
theorem stopsAt_attributesText (h : AttributesText inside attributes) :
    Text.StopsAt (fun c => !isXmlBlank c) inside := by
  intro c hc
  rw [Bool.not_eq_false']
  cases h with
  | nil hgap => exact hgap c (List.mem_of_head? hc)
  | @cons gap _ _ _ _ _ _ _ _ hne hgap =>
    obtain ⟨b, gap, rfl⟩ := List.exists_cons_of_ne_nil hne
    cases hc
    exact hgap _ List.mem_cons_self

/-- Attributes do not end with a slash of their own. -/
theorem getLast?_attributesText (h : AttributesText inside attributes) :
    inside.getLast? ≠ some '/' := by
  induction h with
  | nil hgap => exact fun hlast => blank_ne hgap (List.mem_of_getLast? hlast) rfl rfl
  | @cons gap key before after raw more quote _ _ _ _ _ _ _ hquote _ _ ih =>
    have hsplit : gap ++ (key ++ (before ++ '=' :: (after ++ quote :: (raw ++ quote :: more)))) =
        (gap ++ (key ++ (before ++ '=' :: (after ++ quote :: raw)))) ++ (quote :: more) := by
      simp
    rw [hsplit, List.getLast?_append, List.getLast?_cons]
    intro hlast
    cases hmore : more.getLast? with
    | none =>
      rw [hmore] at hlast
      rcases hquote with rfl | rfl <;> simp at hlast
    | some c =>
      rw [hmore] at hlast ih
      exact ih hlast

/-- An opening tag is one piece of markup. -/
theorem readMarkup_shape {written : List Char} {name : Name} (hname : Spells written name)
    (h : AttributesText inside attributes) (empty : Bool) (rest : List Char) :
    readMarkup (written ++ (inside ++ (tagEnd empty ++ rest))) =
      some (if empty then .empty (written ++ inside) else .opening (written ++ inside), rest) := by
  have hinside := (inside_isPlain hname.isPlain).append (inside_attributesText h)
  obtain ⟨c, more, hc⟩ := List.exists_cons_of_ne_nil hname.ne_nil
  have hmark : isMark c = false := hname.isPlain c (hc ▸ List.mem_cons_self)
  have htag : readMarkup (written ++ (inside ++ (tagEnd empty ++ rest))) =
      (takeTag none ((written ++ inside) ++ (tagEnd empty ++ rest))).map fun p =>
        if p.1.getLast? = some '/' then (.empty p.1.dropLast, p.2) else (.opening p.1, p.2) := by
    rw [← List.append_assoc, hc, List.cons_append, List.cons_append, readMarkup_tag hmark]
  rw [htag, hinside]
  cases empty with
  | true => simp [tagEnd, takeTag]
  | false =>
    have hlast : written.getLast? ≠ some '/' :=
      fun heq => hname.isPlain.ne (List.mem_of_getLast? heq) (by decide) rfl
    simp [tagEnd, takeTag, getLast?_attributesText h, hlast]

theorem tagName_shape {written : List Char} {name : Name} (hname : Spells written name)
    (h : AttributesText inside attributes) : tagName (written ++ inside) = written :=
  Text.takeWhile_span (fun c hc => by rw [hname.isPlain.not_blank hc]; rfl)
    (stopsAt_attributesText h)

/-- The attributes that are read are those that stand in the tag. -/
theorem readAttributes_shape (h : AttributesText inside attributes) {seen : List (List Char)}
    {pairs : List (String × String)} (hread : readAttributes seen inside = some pairs) :
    List.Forall₂ (fun attr pair => Spells pair.1.toList attr.1 ∧
      unescape attr.2 = some pair.2.toList) attributes pairs := by
  induction h generalizing seen pairs with
  | @nil gap hgap =>
    have hend : gap.dropWhile isXmlBlank = [] := by
      simpa using Text.dropWhile_span hgap Text.stopsAt_nil
    rw [readAttributes] at hread
    split at hread
    · cases hread
      exact .nil
    · rename_i hcons
      rw [hend] at hcons
      cases hcons
  | cons _ hgap hkey hbefore hafter hquote hraw _ ih =>
    rw [readAttributes_append hgap hkey.isPlain hkey.ne_nil hbefore hafter hquote hraw] at hread
    split at hread
    · cases hread
    · obtain ⟨data, hdata, hread⟩ := Option.bind_eq_some_iff.1 hread
      obtain ⟨others, hothers, rfl⟩ := Option.map_eq_some_iff.1 hread
      exact .cons ⟨by rwa [String.toList_ofList], by rwa [String.toList_ofList]⟩ (ih hothers)

/-! ## Other markup for the lenient reader -/

theorem takeUntil_append {done : List Char → Bool} {body rest taken : List Char}
    (hdone : done (body.reverse ++ taken) = true)
    (hfirst : ∀ p q, body = p ++ '>' :: q → done (p.reverse ++ taken) = false) :
    takeUntil done taken (body ++ '>' :: rest) = some (body.reverse ++ taken, rest) := by
  induction body generalizing taken with
  | nil =>
    rw [List.reverse_nil, List.nil_append] at hdone ⊢
    rw [List.nil_append, takeUntil, if_pos ⟨rfl, hdone⟩]
  | cons c body ih =>
    have hnot : ¬ (c = '>' ∧ done taken = true) := by
      rintro ⟨rfl, htaken⟩
      have hearly := hfirst [] body rfl
      rw [List.reverse_nil, List.nil_append, htaken] at hearly
      cases hearly
    rw [List.cons_append, takeUntil, if_neg hnot, ih]
    · simp
    · simpa using hdone
    · rintro p q rfl
      simpa using hfirst (c :: p) q rfl

/-- Between `lead` and the first end mark, which is a doubled character and an angle bracket, no
angle bracket ends the markup. -/
theorem not_ended {x : Char} {lead taken rest s p q : List Char}
    (h : Strict.UpTo [x, x, '>'] taken rest s)
    (heq : lead ++ (taken ++ [x, x]) = (p ++ [x, x]) ++ '>' :: q)
    (hlead : lead.length ≤ p.length) : False := by
  rw [List.append_assoc] at heq
  obtain ⟨before, rfl⟩ := Text.prefix_of_append_eq heq hlead
  have heq' : taken ++ [x, x] = before ++ ([x, x, '>'] ++ q) := by
    simpa using heq
  have hlength := congrArg List.length heq'
  have hs : s = before ++ ([x, x, '>'] ++ (q ++ '>' :: rest)) := by
    rw [h.text, show [x, x, '>'] ++ rest = [x, x] ++ '>' :: rest from rfl, ← List.append_assoc,
      heq']
    simp
  have hle := h.length_le hs
  simp only [List.length_append, List.length_cons, List.length_nil] at hlength
  omega

theorem exists_of_isPrefixOf_reverse {x : Char} {p : List Char}
    (h : [x, x].isPrefixOf p.reverse = true) : ∃ before, p = before ++ [x, x] := by
  obtain ⟨after, hafter⟩ := List.isPrefixOf_iff_prefix.1 h
  refine ⟨after.reverse, ?_⟩
  rw [← List.reverse_reverse p, ← hafter]
  simp

theorem readMarkup_comment {taken rest s : List Char} (h : Strict.UpTo "-->".toList taken rest s) :
    readMarkup ('!' :: '-' :: '-' :: s) = some (.passed, rest) := by
  have hbody : '!' :: '-' :: '-' :: s =
      ("!--".toList ++ (taken ++ "--".toList)) ++ '>' :: rest := by
    simp [h.text]
  have htake : takeUntil endsComment [] (("!--".toList ++ (taken ++ "--".toList)) ++ '>' :: rest) =
      some (("!--".toList ++ (taken ++ "--".toList)).reverse ++ [], rest) := by
    refine takeUntil_append (by simp [endsComment]) fun p q hpq => ?_
    rw [List.append_nil]
    by_contra hends
    rw [Bool.not_eq_false, endsComment, Bool.and_eq_true, decide_eq_true_iff] at hends
    obtain ⟨before, rfl⟩ := exists_of_isPrefixOf_reverse hends.2
    have hlength := hends.1
    refine not_ended h hpq ?_
    simp at hlength ⊢
    omega
  rw [readMarkup, readBang, hbody, htake]
  simp

theorem readMarkup_literal {taken rest s : List Char} (h : Strict.UpTo "]]>".toList taken rest s) :
    readMarkup ('!' :: ("[CDATA[".toList ++ s)) = some (.literal taken, rest) := by
  have hbody : '!' :: ("[CDATA[".toList ++ s) =
      ("![CDATA[".toList ++ (taken ++ "]]".toList)) ++ '>' :: rest := by
    simp [h.text]
  have htake : takeUntil endsLiteral []
      (("![CDATA[".toList ++ (taken ++ "]]".toList)) ++ '>' :: rest) =
        some (("![CDATA[".toList ++ (taken ++ "]]".toList)).reverse ++ [], rest) := by
    refine takeUntil_append (by simp [endsLiteral]) fun p q hpq => ?_
    rw [List.append_nil]
    by_contra hends
    rw [Bool.not_eq_false, endsLiteral] at hends
    obtain ⟨before, rfl⟩ := exists_of_isPrefixOf_reverse (x := ']') hends
    refine not_ended h hpq (not_lt.1 fun hlt => ?_)
    -- the first bracket of the mark would stand among the characters that open the section
    have hpq' : (before ++ [']']) ++ (']' :: '>' :: q) =
        "![CDATA[".toList ++ (taken ++ "]]".toList) := by
      rw [hpq]
      simp
    have hfront := Text.prefix_of_append_eq hpq' (by
      rw [List.length_append, List.length_singleton]
      omega)
    exact absurd (hfront.subset (List.mem_append_right before List.mem_cons_self)) (by decide)
  have hopen : '!' :: ("[CDATA[".toList ++ s) = '!' :: '[' :: ("CDATA[".toList ++ s) := rfl
  rw [hopen, readMarkup, readBang, ← hopen, hbody, htake]
  simp [beginsLike, show "![CDATA[".length = 8 from rfl]

/-- What two marks stand behind is the same, if the one is the first mark and the other one has the
first angle bracket. -/
theorem eq_of_first {taken rest before after s : List Char}
    (h : Strict.UpTo "?>".toList taken rest s) (hs : s = before ++ ("?>".toList ++ after))
    (hbefore : '>' ∉ before) : after = rest := by
  have hle := h.length_le hs
  rcases Nat.lt_or_ge taken.length before.length with hlt | hge
  · have heq : (taken ++ "?>".toList) ++ rest = (before ++ ['?']) ++ '>' :: after := by
      rw [List.append_assoc, ← h.text, hs]
      simp
    have hfront := Text.prefix_of_append_eq heq (by
      simp
      omega)
    have hmem : '>' ∈ before ++ ['?'] :=
      hfront.subset (List.mem_append_right _ (by decide))
    simp [hbefore] at hmem
  · obtain ⟨-, heq⟩ := List.append_inj (h.text.symm.trans hs) (Nat.le_antisymm hle hge)
    exact (List.append_cancel_left heq).symm

/-- An instruction ends at the first angle bracket, where the lenient reader takes it at all. -/
theorem readMarkup_instruction {lead taken rest s : List Char}
    (h : Strict.UpTo "?>".toList taken rest s) (hlead : '?' ∉ lead) :
    readMarkup ('?' :: (lead ++ s)) = none ∨
      readMarkup ('?' :: (lead ++ s)) = some (.passed, rest) := by
  rw [readMarkup]
  cases hcut : Text.splitOnce '>' ('?' :: (lead ++ s)) with
  | none =>
    refine absurd ?_ (Text.not_mem_of_splitOnce hcut)
    rw [h.text]
    simp
  | some p =>
    obtain ⟨inside, after⟩ := p
    obtain ⟨htext, hinside⟩ := Text.splitOnce_eq_some hcut
    simp only [Text.cut, hcut, Option.getD_some]
    split
    · rename_i hends
      refine .inr ?_
      obtain ⟨c, inside, rfl⟩ := List.exists_cons_of_length_pos (l := inside) (by omega)
      obtain rfl : '?' = c := (List.cons.inj htext).1
      obtain ⟨inside, rfl⟩ : ∃ init, inside = init ++ ['?'] := by
        refine List.getLast?_eq_some_iff.1 ?_
        rw [← hends.2, List.getLast?_cons_of_ne_nil]
        rintro rfl
        simp at hends
      have hwhole : lead ++ s = inside ++ ("?>".toList ++ after) := by
        simpa using htext
      have hlength : lead.length ≤ inside.length := by
        refine not_lt.1 fun hlt => ?_
        have heq : (inside ++ ['?']) ++ '>' :: after = lead ++ s := by
          rw [hwhole]
          simp
        have hmark := Text.prefix_of_append_eq heq (by
          rw [List.length_append, List.length_singleton]
          omega)
        exact hlead (hmark.subset (by simp))
      obtain ⟨before, rfl⟩ := Text.prefix_of_append_eq hwhole hlength
      rw [List.append_assoc, List.append_cancel_left_eq] at hwhole
      rw [eq_of_first h hwhole fun hmem => hinside (by simp [hmem])]
    · exact .inl rfl

theorem readMarkup_closing {written gap rest : List Char} {name : Name}
    (hname : Spells written name) (hgap : ∀ c ∈ gap, isXmlBlank c = true) :
    ∃ closed, readMarkup ('/' :: (written ++ (gap ++ '>' :: rest))) =
      some (.closing closed, rest) := by
  have hnot : '>' ∉ written ++ gap := by
    rw [List.mem_append]
    rintro (hmem | hmem)
    · exact hname.isPlain.ne hmem (by decide) rfl
    · exact blank_ne hgap hmem rfl rfl
  refine ⟨closingName (written ++ gap), ?_⟩
  rw [← List.append_assoc, readMarkup, Text.cut_append _ hnot]

end Lenient

end SoapKit.Xml
