import SoapKit.Proofs.Xml.Agreement.Decoding
import SoapKit.Proofs.Xml.Agreement.Lexing

/-!
# Pieces of markup and tokens

The lenient reader cuts a text at angle brackets, the strict one by the grammar. `Corresponds` says
that pieces of markup and tokens stand for the same one by one, apart from blanks at the top, which
have no token. Where the strict reader finds tokens and no markup is broken, what the lenient reader
finds corresponds to them (`Strict.corresponds_of_tokensFrom`).

The declaration of a document needs an argument of its own. The lenient reader ends it at the first
closing angle bracket, which may stand inside of a quoted value. It then finds the quote at the end
of the value as character data at the top, and fails (`Lenient.foldlM_declaration`). So on a text
that both readers read, what they take into account corresponds (`Lenient.corresponds_of_foldlM`).
-/

namespace SoapKit.Xml

open Text (isXmlBlank)
open Strict (Token AttributesText tagEnd)
open Lenient (Markup scan readMarkup)

/-- A piece of markup and a token that stand for the same. -/
inductive Matches : Markup → Token → Prop
  | passed : Matches .passed .passed
  | text {raw : List Char} : Matches (.text raw) (.text raw)
  | literal {data : List Char} : Matches (.literal data) (.literal data)
  | tag {written inside : List Char} {name : Name} {attributes : List (Name × List Char)}
      {empty : Bool} : Spells written name → AttributesText inside attributes →
      Matches (if empty then .empty (written ++ inside) else .opening (written ++ inside))
        (.opening name attributes empty)
  | closing {written : List Char} {name : Name} : Matches (.closing written) (.closing name)

/-- Pieces of markup and tokens that stand for the same one by one, where blanks may stand between
the pieces. -/
inductive Corresponds : List Markup → List Token → Prop
  | nil : Corresponds [] []
  | blank {raw : List Char} {pieces : List Markup} {tokens : List Token} :
      (∀ c ∈ raw, isXmlBlank c = true) → Corresponds pieces tokens →
      Corresponds (.text raw :: pieces) tokens
  | cons {m : Markup} {t : Token} {pieces : List Markup} {tokens : List Token} : Matches m t →
      Corresponds pieces tokens → Corresponds (m :: pieces) (t :: tokens)

/-! ## Single tokens -/

/-- The lenient reader fails behind an angle bracket, or takes what matches a token there. -/
def TakenAs (s : List Char) (t : Token) (rest : List Char) : Prop :=
  s ≠ [] ∧ readMarkup s = none ∨ ∃ m, Matches m t ∧ readMarkup s = some (m, rest)

namespace Strict

variable {s rest : List Char} {t : Token}

theorem takenAs_comment (h : takeComment s = some (t, rest)) :
    TakenAs ('!' :: '-' :: '-' :: s) t rest := by
  obtain ⟨⟨taken, rest'⟩, htaken, h⟩ := Option.bind_eq_some_iff.1 h
  simp only at h
  split at h
  · cases h
  · cases h
    exact .inr ⟨_, .passed, Lenient.readMarkup_comment (takeTo_shape htaken)⟩

theorem takenAs_literal (h : takeLiteral s = some (t, rest)) :
    TakenAs ('!' :: ("[CDATA[".toList ++ s)) t rest := by
  obtain ⟨⟨taken, rest'⟩, htaken, h⟩ := Option.bind_eq_some_iff.1 h
  cases h
  exact .inr ⟨_, .literal, Lenient.readMarkup_literal (takeTo_shape htaken)⟩

theorem takenAs_instruction (h : takeInstruction s = some (t, rest)) :
    TakenAs ('?' :: s) t rest := by
  unfold takeInstruction at h
  split at h
  · cases h
  · simp only at h
    split at h
    · obtain ⟨⟨taken, rest'⟩, htaken, h⟩ := Option.bind_eq_some_iff.1 h
      cases h
      generalize htarget : (s.takeWhile fun c => isNameChar c || c == ':') = target at htaken
      obtain ⟨gap, hgap, hrest, -⟩ := exists_gap (s.drop target.length)
      have hs : s = (target ++ gap) ++ (s.drop target.length).dropWhile isXmlBlank := by
        rw [List.append_assoc, ← hrest]
        exact (List.prefix_iff_eq_append.1 (htarget ▸ List.takeWhile_prefix _)).symm
      have hlead : '?' ∉ target ++ gap := by
        rw [List.mem_append]
        rintro (hmem | hmem)
        · rw [← htarget] at hmem
          exact absurd (mem_takeWhile hmem) (by decide)
        · exact Lenient.blank_ne hgap hmem rfl rfl
      rw [hs]
      rcases Lenient.readMarkup_instruction (takeTo_shape htaken) hlead with hnone | hsome
      · exact .inl ⟨by simp, hnone⟩
      · exact .inr ⟨_, .passed, hsome⟩
    · cases h

theorem takenAs_opening (h : takeOpening s = some (t, rest)) : TakenAs s t rest := by
  obtain ⟨⟨name, rest₁⟩, hname, h⟩ := Option.bind_eq_some_iff.1 h
  obtain ⟨⟨⟨attributes, empty⟩, rest₂⟩, hattributes, h⟩ := Option.bind_eq_some_iff.1 h
  cases h
  obtain ⟨written, hwritten, hs⟩ := takeName_shape hname
  obtain ⟨inside, hinside, hrest⟩ := takeAttributes_shape hattributes
  rw [hs, hrest]
  exact .inr ⟨_, .tag hwritten hinside, Lenient.readMarkup_shape hwritten hinside empty rest⟩

theorem takenAs_closing (h : takeClosing s = some (t, rest)) : TakenAs ('/' :: s) t rest := by
  obtain ⟨⟨name, rest₁⟩, hname, h⟩ := Option.bind_eq_some_iff.1 h
  obtain ⟨rest₂, hend, h⟩ := Option.bind_eq_some_iff.1 h
  cases h
  obtain ⟨written, hwritten, hs⟩ := takeName_shape hname
  obtain ⟨gap, hgap, hrest, -⟩ := exists_gap rest₁
  rw [Text.eq_append_of_after? hend] at hrest
  rw [hs, hrest]
  obtain ⟨closed, hclosed⟩ := Lenient.readMarkup_closing hwritten hgap
  exact .inr ⟨_, .closing, hclosed⟩

/-! ## Tokens one after the other -/

theorem scan_of_takenAs (h : TakenAs s t rest) (hwhole : Markup.broken ∉ scan ('<' :: s)) :
    ∃ m, Matches m t ∧ scan ('<' :: s) = m :: scan rest := by
  rcases h with ⟨hne, hnone⟩ | ⟨m, hm, hsome⟩
  · refine absurd ?_ hwhole
    rw [scan, if_neg (by simpa using hne)]
    split
    · rename_i hsome
      rw [hnone] at hsome
      cases hsome
    · exact List.mem_singleton_self _
  · exact ⟨m, hm, Lenient.scan_markup hsome⟩

theorem scan_takeText {c : Char} (hc : c ≠ '<') (h : takeText (c :: s) = some (t, rest)) :
    ∃ m, Matches m t ∧ scan (c :: s) = m :: scan rest := by
  obtain ⟨⟨taken, rest'⟩, htaken, h⟩ := Option.bind_eq_some_iff.1 h
  simp only at h
  split at h
  · cases h
  · cases h
    obtain ⟨hs, hfirst, hrest⟩ := takeChars_shape htaken
    have hnot : '<' ∉ taken := by
      intro hmem
      obtain ⟨p, q, rfl⟩ := List.append_of_mem hmem
      simpa using hfirst p ('<' :: q) rfl (by simp)
    have hstop : Text.StopsAt (· != '<') rest := by
      rcases hrest with rfl | hstop
      · exact Text.stopsAt_nil
      · intro d hd
        rw [hd] at hstop
        simpa using hstop
    have hne : taken ≠ [] := by
      rintro rfl
      rw [List.nil_append] at hs
      rw [← hs] at hrest
      simp [hc] at hrest
    refine ⟨_, .text, ?_⟩
    rw [hs]
    exact Lenient.scan_text hne hnot hstop

theorem scan_takeInside (h : takeInside s = some (t, rest)) (hwhole : Markup.broken ∉ scan s) :
    ∃ m, Matches m t ∧ scan s = m :: scan rest := by
  unfold takeInside at h
  split at h
  · exact scan_of_takenAs (takenAs_comment h) hwhole
  · obtain ⟨after, hafter, h⟩ := Option.bind_eq_some_iff.1 h
    rw [Text.eq_append_of_after? hafter] at hwhole ⊢
    exact scan_of_takenAs (takenAs_literal h) hwhole
  · exact scan_of_takenAs (takenAs_instruction h) hwhole
  · exact scan_of_takenAs (takenAs_closing h) hwhole
  · exact scan_of_takenAs (takenAs_opening h) hwhole
  · cases h
  · rename_i hnot hne
    obtain ⟨c, s, rfl⟩ := List.exists_cons_of_ne_nil (l := s) (by rintro rfl; exact hne rfl)
    exact scan_takeText (by rintro rfl; exact hnot _ rfl) h

theorem scan_takeAtTop {rooted : Bool} (h : takeAtTop rooted s = some (t, rest))
    (hwhole : Markup.broken ∉ scan s) : ∃ m, Matches m t ∧ scan s = m :: scan rest := by
  unfold takeAtTop at h
  split at h
  · exact scan_of_takenAs (takenAs_comment h) hwhole
  · exact scan_of_takenAs (takenAs_instruction h) hwhole
  · split at h
    · cases h
    · exact scan_of_takenAs (takenAs_opening h) hwhole
  · cases h

/-- Blanks at the top are one piece of text, or nothing. -/
theorem scan_gap {gap s : List Char} (hgap : ∀ c ∈ gap, isXmlBlank c = true)
    (hs : Text.StopsAt (· != '<') s) :
    scan (gap ++ s) = scan s ∨ scan (gap ++ s) = .text gap :: scan s := by
  cases gap with
  | nil => exact .inl rfl
  | cons c gap =>
    refine .inr (Lenient.scan_text (by simp) (fun hmem => ?_) hs)
    exact Lenient.blank_ne hgap hmem rfl rfl

theorem takeAtTop_head {rooted : Bool} (h : takeAtTop rooted s = some (t, rest)) :
    Text.StopsAt (· != '<') s := by
  unfold takeAtTop at h
  split at h
  · exact Text.stopsAt_cons rfl
  · exact Text.stopsAt_cons rfl
  · exact Text.stopsAt_cons rfl
  · cases h

/-- Where no markup is broken, the pieces of a text correspond to its tokens. -/
theorem corresponds_of_tokensFrom {steps depth : Nat} {rooted : Bool} {tokens : List Token}
    (h : tokensFrom steps depth rooted s = some tokens) (hwhole : Markup.broken ∉ scan s) :
    Corresponds (scan s) tokens := by
  induction steps generalizing depth rooted s tokens with
  | zero => cases h
  | succ steps ih =>
    have htoken : ∀ {s rest : List Char} {t : Token} {depth : Nat} {rooted : Bool}
        {others : List Token},
        (∃ m, Matches m t ∧ scan s = m :: scan rest) → Markup.broken ∉ scan s →
        tokensFrom steps depth rooted rest = some others → Corresponds (scan s) (t :: others) := by
      rintro s rest t depth rooted others ⟨m, hm, hscan⟩ hwhole hothers
      rw [hscan, List.mem_cons, not_or] at hwhole
      rw [hscan]
      exact .cons hm (ih hothers hwhole.2)
    rw [tokensFrom] at h
    by_cases hdepth : depth = 0
    · simp only [hdepth, if_true, decide_true, Bool.true_and] at h
      obtain ⟨gap, hgap, hs, -⟩ := exists_gap s
      generalize s.dropWhile isXmlBlank = inner at h hs
      subst hs
      split at h
      · rename_i hempty
        obtain rfl := List.isEmpty_iff.1 hempty
        split at h
        · cases h
          rcases scan_gap hgap Text.stopsAt_nil with heq | heq
          · rw [heq, scan]
            exact .nil
          · rw [heq, scan]
            exact .blank hgap .nil
        · cases h
      · obtain ⟨⟨t, rest⟩, ht, h⟩ := Option.bind_eq_some_iff.1 h
        obtain ⟨others, hothers, h⟩ := Option.bind_eq_some_iff.1 h
        cases h
        rcases scan_gap hgap (takeAtTop_head ht) with heq | heq
        · rw [heq] at hwhole ⊢
          exact htoken (scan_takeAtTop ht hwhole) hwhole hothers
        · rw [heq, List.mem_cons, not_or] at hwhole
          rw [heq]
          exact .blank hgap (htoken (scan_takeAtTop ht hwhole.2) hwhole.2 hothers)
    · simp only [hdepth, if_false, decide_false, Bool.false_and, Bool.false_eq_true] at h
      obtain ⟨⟨t, rest⟩, ht, h⟩ := Option.bind_eq_some_iff.1 h
      obtain ⟨others, hothers, h⟩ := Option.bind_eq_some_iff.1 h
      cases h
      exact htoken (scan_takeInside ht hwhole) hwhole hothers

end Strict

/-! ## The declaration of a document -/

/-- A text without opening angle brackets in which a quote follows on every closing one: where a
closing angle bracket stands in it, it stands in a value. -/
def IsSealed (s : List Char) : Prop :=
  '<' ∉ s ∧ ∀ p q, s = p ++ '>' :: q → ∃ quote ∈ q, quote = '"' ∨ quote = '\''

theorem isSealed_of_not_mem {s : List Char} (hopen : '<' ∉ s) (hclose : '>' ∉ s) : IsSealed s :=
  ⟨hopen, fun p q hs => absurd (by simp [hs]) hclose⟩

theorem IsSealed.append {s t : List Char} (hs : IsSealed s) (ht : IsSealed t) :
    IsSealed (s ++ t) := by
  refine ⟨fun hmem => (List.mem_append.1 hmem).elim hs.1 ht.1, fun p q hpq => ?_⟩
  rcases List.append_eq_append_iff.1 hpq with ⟨more, rfl, rfl⟩ | ⟨more, rfl, hmore⟩
  · exact ht.2 more q rfl
  · cases more with
    | nil => exact ht.2 [] q hmore.symm
    | cons c more =>
      obtain ⟨rfl, rfl⟩ := List.cons.inj hmore
      obtain ⟨quote, hmem, hquote⟩ := hs.2 p more rfl
      exact ⟨quote, List.mem_append_left t hmem, hquote⟩

theorem isSealed_quoted {quote : Char} (hquote : quote = '"' ∨ quote = '\'') {raw : List Char}
    (hraw : '<' ∉ raw) : IsSealed (quote :: (raw ++ [quote])) := by
  have hne : quote ≠ '<' ∧ quote ≠ '>' := by
    rcases hquote with rfl | rfl <;> decide
  refine ⟨by simp [hraw, Ne.symm hne.1], fun p q hpq => ⟨quote, ?_, hquote⟩⟩
  have hlast := congrArg List.getLast? hpq
  rw [← List.cons_append, List.getLast?_concat, List.getLast?_append, List.getLast?_cons] at hlast
  cases hq : q.getLast? with
  | none =>
    rw [hq] at hlast
    exact absurd (Option.some.inj hlast) hne.2
  | some c =>
    rw [hq] at hlast
    rw [show quote = c from Option.some.inj hlast]
    exact List.mem_of_getLast? hq

theorem isSealed_isPlain {s : List Char} (h : IsPlain s) : IsSealed s :=
  isSealed_of_not_mem (fun hmem => h.ne hmem (by decide) rfl) fun hmem => h.ne hmem (by decide) rfl

theorem isSealed_blank {gap : List Char} (h : ∀ c ∈ gap, isXmlBlank c = true) : IsSealed gap :=
  isSealed_of_not_mem (fun hmem => Lenient.blank_ne h hmem rfl rfl)
    fun hmem => Lenient.blank_ne h hmem rfl rfl

/-- What is left of a text when something sealed is taken off its front. -/
def Leaves (s rest : List Char) : Prop :=
  ∃ body, IsSealed body ∧ s = body ++ rest

namespace Leaves

variable {s s' rest : List Char}

protected theorem rfl : Leaves s s :=
  ⟨[], isSealed_of_not_mem (by simp) (by simp), rfl⟩

theorem trans (h : Leaves s s') (h' : Leaves s' rest) : Leaves s rest := by
  obtain ⟨body, hbody, rfl⟩ := h
  obtain ⟨body', hbody', rfl⟩ := h'
  exact ⟨body ++ body', hbody.append hbody', (List.append_assoc ..).symm⟩

end Leaves

namespace Strict

variable {s rest : List Char}

theorem leaves_dropWhile (s : List Char) : Leaves s (s.dropWhile isXmlBlank) := by
  obtain ⟨gap, hgap, hs, -⟩ := exists_gap s
  exact ⟨gap, isSealed_blank hgap, hs⟩

theorem leaves_takeAttribute {attr : Name × List Char} (h : takeAttribute s = some (attr, rest)) :
    Leaves s rest := by
  obtain ⟨key, before, after, quote, hkey, hbefore, hafter, hquote, -, hraw, rfl⟩ :=
    takeAttribute_shape h
  refine ⟨_, (isSealed_isPlain hkey.isPlain).append ((isSealed_blank hbefore).append
    ((isSealed_of_not_mem (s := ['=']) (by simp) (by simp)).append ((isSealed_blank hafter).append
      (isSealed_quoted hquote hraw)))), ?_⟩
  simp

theorem leaves_takeGap (h : takeGap s = some rest) : Leaves s rest := by
  unfold takeGap at h
  split at h
  · cases h
    exact leaves_dropWhile s
  · split at h
    · cases h
      exact .rfl
    · cases h

theorem leaves_takeOptional {word : String} (h : takeOptional word s = some rest) :
    Leaves s rest := by
  unfold takeOptional at h
  split at h
  · obtain ⟨⟨attr, rest'⟩, hattr, rfl⟩ := Option.map_eq_some_iff.1 h
    exact leaves_takeAttribute hattr
  · cases h
    exact .rfl

theorem leaves_declarationEnd (h : ((takeOptional "standalone" s).bind fun rest =>
    Text.after? "?>".toList (rest.dropWhile isXmlBlank)) = some rest) :
    Leaves s ("?>".toList ++ rest) := by
  obtain ⟨rest', hstandalone, h⟩ := Option.bind_eq_some_iff.1 h
  rw [← Text.eq_append_of_after? h]
  exact (leaves_takeOptional hstandalone).trans (leaves_dropWhile rest')

theorem takeDeclaration_shape (h : takeDeclaration s = some rest) :
    s = rest ∨ ∃ body, IsSealed body ∧
      s = '<' :: '?' :: ("xml ".toList ++ (body ++ ("?>".toList ++ rest))) := by
  unfold takeDeclaration at h
  split at h
  · exact .inl (Option.some.inj h)
  · rename_i rest₁ hopen
    have hs := Text.eq_append_of_after? hopen
    simp only at h
    split at h
    · obtain ⟨⟨attr, rest₂⟩, hversion, h⟩ := Option.bind_eq_some_iff.1 h
      obtain ⟨rest₃, hgap, h⟩ := Option.bind_eq_some_iff.1 h
      have hend : Leaves rest₃ ("?>".toList ++ rest) := by
        split at h
        · obtain ⟨⟨attr', rest₄⟩, hencoding, h⟩ := Option.bind_eq_some_iff.1 h
          obtain ⟨rest₅, hgap', h⟩ := Option.bind_eq_some_iff.1 h
          exact (leaves_takeAttribute hencoding).trans
            ((leaves_takeGap hgap').trans (leaves_declarationEnd h))
        · exact leaves_declarationEnd h
      obtain ⟨body, hbody, hrest⟩ := (leaves_dropWhile rest₁).trans
        ((leaves_takeAttribute hversion).trans ((leaves_takeGap hgap).trans hend))
      exact .inr ⟨body, hbody, by rw [hs, hrest]; rfl⟩
    · cases h

end Strict

namespace Lenient

/-- A reading that gets through all pieces meets none that is broken. -/
theorem broken_not_mem {pieces : List Markup} {r r' : Reading}
    (h : pieces.foldlM Reading.step r = .ok r') : .broken ∉ pieces := by
  induction pieces generalizing r with
  | nil => simp
  | cons m rest ih =>
    rw [List.foldlM_cons] at h
    obtain ⟨next, hnext, h⟩ := bind_eq_ok.1 h
    rw [List.mem_cons, not_or]
    refine ⟨?_, ih h⟩
    rintro rfl
    cases hnext

/-- A quote is no blank, so it does not stand at the top. -/
theorem not_step_of_quote_mem {raw : List Char} {quote : Char} (hmem : quote ∈ raw)
    (hquote : quote = '"' ∨ quote = '\'') (r : Reading) :
    Reading.step ⟨Assembly.start, []⟩ (.text raw) ≠ .ok r := by
  intro h
  rw [Reading.step] at h
  split at h
  · rename_i data hdata
    obtain ⟨a, ha, -⟩ := bind_eq_ok.1 h
    have hblank : Text.isAllBlank (String.ofList data) = false := by
      rw [Text.isAllBlank, String.toList_ofList, List.all_eq_false]
      refine ⟨quote, quote_mem_of_unescape hdata hquote hmem, ?_⟩
      rcases hquote with rfl | rfl <;> decide
    rw [Assembly.shows_start.addText_nil hblank] at ha
    cases ha
  · cases h

theorem not_foldlM_of_quote_mem {s rest : List Char} (hs : '<' ∉ s) {quote : Char}
    (hmem : quote ∈ s) (hquote : quote = '"' ∨ quote = '\'') (r : Reading) :
    (scan (s ++ rest)).foldlM Reading.step ⟨Assembly.start, []⟩ ≠ .ok r := by
  intro h
  have hrest := List.takeWhile_append_dropWhile (p := (· != '<')) (l := rest)
  have hstop : Text.StopsAt (· != '<') (rest.dropWhile (· != '<')) := by
    intro c hc
    have := List.head?_dropWhile_not (· != '<') rest
    rw [hc] at this
    simpa using this
  have hdata : '<' ∉ s ++ rest.takeWhile (· != '<') := by
    rw [List.mem_append, not_or]
    exact ⟨hs, fun hmem => by simpa using Strict.mem_takeWhile hmem⟩
  rw [← hrest, ← List.append_assoc, scan_text (by rintro heq; simp_all) hdata hstop,
    List.foldlM_cons] at h
  obtain ⟨next, hnext, -⟩ := bind_eq_ok.1 h
  exact not_step_of_quote_mem (List.mem_append_left _ hmem) hquote next hnext

/-- The lenient reader passes over a declaration. Were it to end one inside of a value, it would
find the end of the value at the top and refuse it. -/
theorem foldlM_declaration {s rest : List Char} (h : Strict.takeDeclaration s = some rest)
    {r : Reading} (hread : (scan s).foldlM Reading.step ⟨Assembly.start, []⟩ = .ok r) :
    (scan rest).foldlM Reading.step ⟨Assembly.start, []⟩ = .ok r := by
  rcases Strict.takeDeclaration_shape h with rfl | ⟨body, hbody, rfl⟩
  · exact hread
  · by_cases hmem : '>' ∈ body
    · exfalso
      obtain ⟨p, q, hsplit⟩ : ∃ p q, Text.splitOnce '>' body = some (p, q) := by
        cases hsplit : Text.splitOnce '>' body with
        | none => exact absurd hmem (Text.not_mem_of_splitOnce hsplit)
        | some pair => exact ⟨pair.1, pair.2, rfl⟩
      obtain ⟨rfl, hp⟩ := Text.splitOnce_eq_some hsplit
      obtain ⟨quote, hquoteMem, hquote⟩ := hbody.2 p q rfl
      have hcut : Text.cut '>'
          ('?' :: ("xml ".toList ++ ((p ++ '>' :: q) ++ ("?>".toList ++ rest)))) =
            ('?' :: ("xml ".toList ++ p), q ++ ("?>".toList ++ rest)) := by
        rw [← Text.cut_append _ (show '>' ∉ '?' :: ("xml ".toList ++ p) by simp [hp])]
        simp
      have htaken : TakenAs ('?' :: ("xml ".toList ++ ((p ++ '>' :: q) ++ ("?>".toList ++ rest))))
          .passed (q ++ ("?>".toList ++ rest)) := by
        rw [TakenAs, readMarkup, hcut]
        simp only
        split
        · exact .inr ⟨_, .passed, rfl⟩
        · exact .inl ⟨by simp, rfl⟩
      obtain ⟨m, hm, hscan⟩ := Strict.scan_of_takenAs htaken (broken_not_mem hread)
      cases hm
      rw [hscan, List.foldlM_cons] at hread
      have hopen : '<' ∉ q := fun hmem => hbody.1 (by simp [hmem])
      exact not_foldlM_of_quote_mem hopen hquoteMem hquote r hread
    · have hinside : '>' ∉ '?' :: ("xml ".toList ++ (body ++ ['?'])) := by
        simp [hmem]
      have hmarkup : readMarkup ('?' :: ("xml ".toList ++ (body ++ ("?>".toList ++ rest)))) =
          some (.passed, rest) := by
        have hcut : Text.cut '>' ('?' :: ("xml ".toList ++ (body ++ ("?>".toList ++ rest)))) =
            ('?' :: ("xml ".toList ++ (body ++ ['?'])), rest) := by
          rw [← Text.cut_append rest hinside]
          simp
        have hlast : ('?' :: ("xml ".toList ++ (body ++ ['?']))).getLast? = some '?' := by
          rw [← List.append_assoc, ← List.cons_append, List.getLast?_concat]
        rw [readMarkup, hcut]
        simp only
        rw [if_pos ⟨by simp, hlast⟩]
      rw [scan_markup hmarkup, List.foldlM_cons] at hread
      exact hread

/-- What both readers go through in a text: the markup that the lenient reader takes into account
corresponds to the tokens of the strict one. -/
theorem corresponds_of_foldlM {s : List Char} {tokens : List Token}
    (htokens : Strict.tokens s = some tokens) {r : Reading}
    (hread : (scan (dropMark s)).foldlM Reading.step ⟨Assembly.start, []⟩ = .ok r) :
    ∃ pieces, Corresponds pieces tokens ∧
      pieces.foldlM Reading.step ⟨Assembly.start, []⟩ = .ok r := by
  have hmark : (if s.head? = some '\uFEFF' then s.drop 1 else s) = dropMark s := by
    by_cases hhead : s.head? = some '\uFEFF'
    · obtain ⟨rest, rfl⟩ := List.head?_eq_some_iff.1 hhead
      rw [if_pos hhead]
      rfl
    · rw [if_neg hhead, dropMark.eq_2]
      rintro rest rfl
      exact hhead rfl
  obtain ⟨rest, hrest, h⟩ := Option.bind_eq_some_iff.1 htokens
  rw [hmark] at hrest
  have hfold := foldlM_declaration hrest hread
  exact ⟨_, Strict.corresponds_of_tokensFrom h (broken_not_mem hfold), hfold⟩

end Lenient

end SoapKit.Xml
