import SoapKit.Proofs.Xml.Strict.Layout

/-!
# What events are made of

Whatever a text holds, the names that the strict reader takes from it are names of the grammar, and
the data is made of characters that may stand in a document. It is so for the tokens
(`Token.IsStrict`), one production after the other, then for the events, in which references are
replaced and line breaks are normalized (`Event.IsStrict`).
-/

namespace SoapKit.Xml

/-! ## What tokens are made of -/

namespace Strict

/-- A token with names of the grammar and characters that may stand in a document. -/
def Token.IsStrict : Token → Prop
  | .opening name attributes _ =>
    name.IsStrict ∧ ∀ attr ∈ attributes, attr.1.IsStrict ∧ ∀ c ∈ attr.2, isXmlChar c = true
  | .text data | .literal data => ∀ c ∈ data, isXmlChar c = true
  | .passed | .closing _ => True

variable {s rest : List Char} {t : Token}

theorem takeName_isStrict {name : Name} (h : takeName s = some (name, rest)) : name.IsStrict := by
  have hpart : ∀ {s : List Char}, (s.takeWhile isNameChar).head?.any isNameStart = true →
      IsNamePart (String.ofList (s.takeWhile isNameChar)) := fun hbegins =>
    ⟨by rwa [String.toList_ofList], fun c hc => mem_takeWhile (by rwa [String.toList_ofList] at hc)⟩
  unfold takeName at h
  simp only at h
  split at h
  · split at h
    · rename_i hbegins
      cases h
      rw [Bool.and_eq_true, Bool.or_eq_true] at hbegins
      refine ⟨fun qualifier hq => ?_, hpart hbegins.2⟩
      simp only at hq
      split at hq
      · cases hq
      · rename_i hempty
        cases hq
        exact hpart (hbegins.1.resolve_left hempty)
    · cases h
  · split at h
    · rename_i hbegins
      cases h
      exact ⟨by simp, hpart hbegins⟩
    · cases h

theorem takeChars_isXmlChar {stop : List Char → Bool} {taken : List Char}
    (h : takeChars stop s = some (taken, rest)) : ∀ c ∈ taken, isXmlChar c = true := by
  induction s generalizing taken with
  | nil =>
    cases h
    simp
  | cons c s ih =>
    rw [takeChars] at h
    split at h
    · cases h
    · rename_i hc
      split at h
      · cases h
        simp
      · obtain ⟨⟨taken', rest'⟩, htaken, heq⟩ := Option.map_eq_some_iff.1 h
        cases heq
        rw [List.forall_mem_cons]
        exact ⟨by simpa using hc, ih htaken⟩

theorem takeTo_isXmlChar {mark : String} {taken : List Char}
    (h : takeTo mark s = some (taken, rest)) : ∀ c ∈ taken, isXmlChar c = true := by
  obtain ⟨⟨taken', rest'⟩, htaken, h⟩ := Option.bind_eq_some_iff.1 h
  obtain ⟨after, -, h⟩ := Option.bind_eq_some_iff.1 h
  cases h
  exact takeChars_isXmlChar htaken

theorem takeAttribute_isStrict {attr : Name × List Char} (h : takeAttribute s = some (attr, rest)) :
    attr.1.IsStrict ∧ ∀ c ∈ attr.2, isXmlChar c = true := by
  obtain ⟨⟨name, rest₁⟩, hname, h⟩ := Option.bind_eq_some_iff.1 h
  obtain ⟨rest₂, -, h⟩ := Option.bind_eq_some_iff.1 h
  split at h
  · split at h
    · obtain ⟨⟨value, rest₃⟩, hvalue, h⟩ := Option.bind_eq_some_iff.1 h
      obtain ⟨rest₄, -, h⟩ := Option.bind_eq_some_iff.1 h
      cases h
      exact ⟨takeName_isStrict hname, takeChars_isXmlChar hvalue⟩
    · cases h
  · cases h

theorem takeAttributes_isStrict {steps : Nat} {attributes : List (Name × List Char)} {empty : Bool}
    (h : takeAttributes steps s = some ((attributes, empty), rest)) :
    ∀ attr ∈ attributes, attr.1.IsStrict ∧ ∀ c ∈ attr.2, isXmlChar c = true := by
  induction steps generalizing s attributes with
  | zero => cases h
  | succ steps ih =>
    rw [takeAttributes] at h
    split at h
    · cases h
      simp
    · cases h
      simp
    · split at h
      · obtain ⟨⟨attr, rest₁⟩, hattr, h⟩ := Option.bind_eq_some_iff.1 h
        obtain ⟨⟨⟨others, empty'⟩, rest₂⟩, hothers, h⟩ := Option.bind_eq_some_iff.1 h
        cases h
        exact List.forall_mem_cons.2 ⟨takeAttribute_isStrict hattr, ih hothers⟩
      · cases h

theorem takeOpening_isStrict (h : takeOpening s = some (t, rest)) : t.IsStrict := by
  obtain ⟨⟨name, rest₁⟩, hname, h⟩ := Option.bind_eq_some_iff.1 h
  obtain ⟨⟨⟨attributes, empty⟩, rest₂⟩, hattributes, h⟩ := Option.bind_eq_some_iff.1 h
  cases h
  exact ⟨takeName_isStrict hname, takeAttributes_isStrict hattributes⟩

theorem takeClosing_isStrict (h : takeClosing s = some (t, rest)) : t.IsStrict := by
  obtain ⟨⟨name, rest₁⟩, -, h⟩ := Option.bind_eq_some_iff.1 h
  obtain ⟨rest₂, -, h⟩ := Option.bind_eq_some_iff.1 h
  cases h
  trivial

theorem takeComment_isStrict (h : takeComment s = some (t, rest)) : t.IsStrict := by
  obtain ⟨⟨taken, rest₁⟩, -, h⟩ := Option.bind_eq_some_iff.1 h
  simp only at h
  split at h
  · cases h
  · cases h
    trivial

theorem takeInstruction_isStrict (h : takeInstruction s = some (t, rest)) : t.IsStrict := by
  unfold takeInstruction at h
  split at h
  · cases h
  · simp only at h
    split at h
    · obtain ⟨taken, -, h⟩ := Option.bind_eq_some_iff.1 h
      cases h
      trivial
    · cases h

theorem takeInside_isStrict (h : takeInside s = some (t, rest)) : t.IsStrict := by
  unfold takeInside at h
  split at h
  · exact takeComment_isStrict h
  · obtain ⟨after, -, h⟩ := Option.bind_eq_some_iff.1 h
    obtain ⟨⟨taken, rest₁⟩, htaken, h⟩ := Option.bind_eq_some_iff.1 h
    cases h
    exact takeTo_isXmlChar htaken
  · exact takeInstruction_isStrict h
  · exact takeClosing_isStrict h
  · exact takeOpening_isStrict h
  · cases h
  · obtain ⟨⟨taken, rest₁⟩, htaken, h⟩ := Option.bind_eq_some_iff.1 h
    simp only at h
    split at h
    · cases h
    · cases h
      exact takeChars_isXmlChar htaken

theorem takeAtTop_isStrict {rooted : Bool} (h : takeAtTop rooted s = some (t, rest)) :
    t.IsStrict := by
  unfold takeAtTop at h
  split at h
  · exact takeComment_isStrict h
  · exact takeInstruction_isStrict h
  · split at h
    · cases h
    · exact takeOpening_isStrict h
  · cases h

theorem tokensFrom_isStrict {steps depth : Nat} {rooted : Bool} {tokens : List Token}
    (h : tokensFrom steps depth rooted s = some tokens) : ∀ t ∈ tokens, t.IsStrict := by
  induction steps generalizing depth rooted s tokens with
  | zero => cases h
  | succ steps ih =>
    rw [tokensFrom] at h
    by_cases hdepth : depth = 0
    · simp only [hdepth, if_true, decide_true, Bool.true_and] at h
      split at h
      · split at h
        · cases h
          simp
        · cases h
      · obtain ⟨⟨t, rest⟩, ht, h⟩ := Option.bind_eq_some_iff.1 h
        obtain ⟨others, hothers, h⟩ := Option.bind_eq_some_iff.1 h
        cases h
        exact List.forall_mem_cons.2 ⟨takeAtTop_isStrict ht, ih hothers⟩
    · simp only [hdepth, if_false, decide_false, Bool.false_and, Bool.false_eq_true] at h
      obtain ⟨⟨t, rest⟩, ht, h⟩ := Option.bind_eq_some_iff.1 h
      obtain ⟨others, hothers, h⟩ := Option.bind_eq_some_iff.1 h
      cases h
      exact List.forall_mem_cons.2 ⟨takeInside_isStrict ht, ih hothers⟩

/-- All tokens of a text have names of the grammar and characters that may stand in a document. -/
theorem tokens_isStrict {found : List Token} (h : tokens s = some found) :
    ∀ t ∈ found, t.IsStrict := by
  obtain ⟨rest, -, h⟩ := Option.bind_eq_some_iff.1 h
  exact tokensFrom_isStrict h

/-! ## What events are made of -/

theorem isXmlChar_of_referred? {name : List Char} {c : Char} (h : referred? name = some c) :
    isXmlChar c = true := by
  have hnumbered : ∀ {digit : Char → Option Nat} {base : Nat} {digits : List Char},
      numbered? digit base digits = some c → isXmlChar c = true := by
    intro digit base digits h
    obtain ⟨n, -, h⟩ := Option.bind_eq_some_iff.1 h
    split at h
    · generalize (if n = 0 then '\x00' else (charOfNumber? n).getD '\uFFFD') = found at h
      simp only at h
      split at h
      · rename_i hc
        cases h
        exact hc
      · cases h
    · cases h
  have hall : (namedCharacters.all fun named => isXmlChar named.2) = true := by decide
  unfold referred? at h
  split at h
  · exact hnumbered h
  · exact hnumbered h
  · obtain ⟨named, hnamed, rfl⟩ := Option.map_eq_some_iff.1 h
    exact List.all_eq_true.1 hall _ (List.mem_of_find?_eq_some hnamed)

theorem isXmlChar_of_units {us : List DataUnit} (h : units s = some us)
    (hs : ∀ c ∈ s, isXmlChar c = true) : ∀ u ∈ us, isXmlChar u.char = true := by
  fun_induction units s generalizing us
  case case1 =>
    cases h
    simp
  case case2 rest name after hsplit ih =>
    obtain ⟨c, hc, h⟩ := Option.bind_eq_some_iff.1 h
    obtain ⟨us, hus, h⟩ := Option.bind_eq_some_iff.1 h
    cases h
    refine List.forall_mem_cons.2 ⟨isXmlChar_of_referred? hc, ih hus fun c hc => hs c ?_⟩
    rw [(Text.splitOnce_eq_some hsplit).1]
    simp [hc]
  case case3 => cases h
  case case4 first rest _ ih =>
    obtain ⟨us, hus, h⟩ := Option.bind_eq_some_iff.1 h
    cases h
    rw [List.forall_mem_cons] at hs
    exact List.forall_mem_cons.2 ⟨hs.1, ih hus hs.2⟩

/-- What is normalized is a character of the data or a line feed. -/
theorem isXmlChar_normalizeText {us : List DataUnit} (h : ∀ u ∈ us, isXmlChar u.char = true)
    (afterReference : Bool) : ∀ c ∈ normalizeText afterReference us, isXmlChar c = true := by
  have hfeed : isXmlChar '\n' = true := by decide
  fun_induction normalizeText afterReference us <;> simp_all [DataUnit.char]

theorem isXmlChar_normalizeValue {us : List DataUnit} (h : ∀ u ∈ us, isXmlChar u.char = true) :
    ∀ c ∈ normalizeValue us, isXmlChar c = true := by
  have hspace : isXmlChar ' ' = true := by decide
  fun_induction normalizeValue us <;> simp_all [DataUnit.char]

/-- An event with names of the grammar and characters that may stand in a document. -/
def Event.IsStrict : Event → Prop
  | .opening name attributes _ =>
    name.IsStrict ∧
      ∀ attr ∈ attributes, attr.1.IsStrict ∧ ∀ c ∈ attr.2.toList, isXmlChar c = true
  | .data text => ∀ c ∈ text, isXmlChar c = true
  | .separator | .closing _ => True

theorem Token.IsStrict.event {t : Token} (h : t.IsStrict) {event : Event}
    (hevent : t.event = some event) : event.IsStrict := by
  cases t with
  | passed =>
    cases hevent
    trivial
  | opening name attributes empty =>
    obtain ⟨values, hvalues, hevent⟩ := Option.bind_eq_some_iff.1 hevent
    cases hevent
    refine ⟨h.1, fun value hvalue => ?_⟩
    obtain ⟨attr, hattr, hvalue⟩ := exists_mem_of_forall₂ (mapM_eq_some_iff.1 hvalues) hvalue
    obtain ⟨us, hus, hvalue⟩ := Option.bind_eq_some_iff.1 hvalue
    cases hvalue
    refine ⟨(h.2 attr hattr).1, ?_⟩
    rw [String.toList_ofList]
    exact isXmlChar_normalizeValue (isXmlChar_of_units hus (h.2 attr hattr).2)
  | closing name =>
    cases hevent
    trivial
  | text raw =>
    obtain ⟨us, hus, rfl⟩ := Option.map_eq_some_iff.1 hevent
    exact isXmlChar_normalizeText (isXmlChar_of_units hus h) false
  | literal data =>
    cases hevent
    refine isXmlChar_normalizeText (fun u hu => ?_) false
    obtain ⟨c, hc, rfl⟩ := List.mem_map.1 hu
    exact h c hc

/-- What holds of all events holds of them when their data is joined. -/
theorem forall_joinData {p : Event → Prop}
    (hp : ∀ a b, p (.data a) → p (.data b) → p (.data (a ++ b))) {events : List Event}
    (h : ∀ event ∈ events, p event) : ∀ event ∈ joinData events, p event := by
  induction events with
  | nil => exact h
  | cons event rest ih =>
    rw [List.forall_mem_cons] at h
    have hrest := ih h.2
    cases event with
    | data a =>
      simp only [joinData]
      split
      · rename_i b others heq
        rw [heq, List.forall_mem_cons] at hrest
        exact List.forall_mem_cons.2 ⟨hp a b h.1 hrest.1, hrest.2⟩
      · exact List.forall_mem_cons.2 ⟨h.1, hrest⟩
    | separator => exact List.forall_mem_cons.2 ⟨h.1, hrest⟩
    | opening name attributes empty => exact List.forall_mem_cons.2 ⟨h.1, hrest⟩
    | closing name => exact List.forall_mem_cons.2 ⟨h.1, hrest⟩

/-- What drives the reading of a text, before data is joined. -/
def events (s : List Char) : Option (List Event) :=
  (tokens s).bind (·.mapM Token.event)

theorem events_isStrict {s : List Char} {found : List Event} (h : events s = some found) :
    ∀ event ∈ found, event.IsStrict := by
  obtain ⟨all, htokens, h⟩ := Option.bind_eq_some_iff.1 h
  intro event hevent
  obtain ⟨t, ht, hevent⟩ := exists_mem_of_forall₂ (mapM_eq_some_iff.1 h) hevent
  exact (tokens_isStrict htokens t ht).event hevent

end Strict

end SoapKit.Xml
