import SoapKit.Proofs.Xml.Agreement.Scopes
import SoapKit.Proofs.Xml.Agreement.Tokens
import SoapKit.Proofs.Xml.Production
import SoapKit.Proofs.Xml.Taking

/-!
# Agreement of the readers

**Theorem (`Document.readers_agree`).** On a text that both readers read, they make documents that
are alike as far as blanks do not matter, and alike in everything where the blanks written in values
are spaces and every run of character data is even.

The readers go through corresponding pieces of markup and tokens, and the proof is an induction over
these with the invariant `Abreast`: both assemblies hold alike trees inside of elements that are
alike (`Levels`), and inside of each of them both know the same namespaces. Two things keep the
readers from going in step.

* The lenient reader drops every blank piece of data, the strict one joins the pieces of a run and
  drops the run if all of it is blank. So the invariant speaks of the data that the strict reader
  has yet to add, and `RunAgrees` says what the end of a run needs.
* The strict reader alone normalizes line breaks and blanks in values, which `ValueAgrees` is about.

The theorem also asks that no attribute is called `xmlns` under a qualifier, since only the strict
reader takes it for a declaration. `Document.readers_disagree` shows what goes wrong without each of
the conditions.
-/

namespace SoapKit.Xml

open SoapKit.Xml.Tree
open Strict (Event Token joinData)
open Lenient (Markup scan)

variable {f : String → String}

/-! ## Assemblies side by side -/

/-- Character data is added to what the innermost open element holds, unless it is blank. -/
theorem Assembly.Shows.addData {a a' : Assembly} {frames : List Frame} {done : List Tree}
    (h : a.Shows frames done) {data : List Char}
    (hadd : a.addText (String.ofList data) = .ok a') :
    a'.Shows frames (Tree.addData done data) := by
  have hall : Text.isAllBlank (String.ofList data) = data.all Text.isBlank := by
    rw [Text.isAllBlank, String.toList_ofList]
  rw [Tree.addData]
  cases hblank : data.all Text.isBlank with
  | true =>
    rw [Assembly.addText_blank (hall.trans hblank)] at hadd
    cases hadd
    exact h
  | false =>
    rw [if_neg Bool.false_ne_true]
    cases frames with
    | nil =>
      rw [h.addText_nil (hall.trans hblank)] at hadd
      cases hadd
    | cons frame outer =>
      obtain ⟨b, hb, hs⟩ := h.addText (hall.trans hblank) (List.cons_ne_nil frame outer)
      rw [hadd] at hb
      cases hb
      exact hs

theorem Frame.scope_cons (frame : Frame) (frames : List Frame) :
    Frame.scope (frame :: frames) = frame.tag.declarations ++ Frame.scope frames := by
  rw [Frame.scope, List.map_cons, List.flatten_cons, Frame.scope]

/-- The open elements of two readers, with alike tags and alike finished siblings, and what the
strict reader has in scope on each of them. -/
inductive Levels (f : String → String) :
    List Frame → List (Name × List Declaration) → List Frame → Prop
  | top : Levels f [] [] []
  | inner {frames frames' : List Frame} {opened : List (Name × List Declaration)}
      {before before' : List Tree} {tag tag' : Tag} {name : Name} {known : List Declaration} :
      Levels f frames opened frames' →
      AlikeAll f (Frame.scope frames) (Frame.scope frames') before before' → tag.Alike f tag' →
      InScope f (tag.declarations ++ Frame.scope frames) known
        (tag'.declarations ++ Frame.scope frames') →
      Levels f (⟨tag, before⟩ :: frames) ((name, known) :: opened) (⟨tag', before'⟩ :: frames')

theorem Levels.inScope {frames frames' : List Frame} {opened : List (Name × List Declaration)}
    (h : Levels f frames opened frames') :
    InScope f (Frame.scope frames) ((opened.head?.map (·.2)).getD []) (Frame.scope frames') := by
  cases h with
  | top => exact inScope_nil
  | inner _ _ _ hscope =>
    rw [Frame.scope_cons, Frame.scope_cons]
    exact hscope

/-- Assemblies of the two readers behind corresponding places of a text: they hold alike trees
inside of elements that are alike. `opened` is what the strict reader knows of the open elements,
and `pending` is data that the lenient reader has taken and the strict one has not. -/
def Abreast (f : String → String) (pending : List (List Char)) (a : Assembly)
    (opened : List (Name × List Declaration)) (b : Assembly) : Prop :=
  ∃ frames done frames' done', a.Shows frames (pending.foldl Tree.addData done) ∧
    b.Shows frames' done' ∧ Levels f frames opened frames' ∧
    AlikeAll f (Frame.scope frames) (Frame.scope frames') done done'

namespace Abreast

variable {pending : List (List Char)} {a a' b b' : Assembly}
  {opened : List (Name × List Declaration)}

theorem start : Abreast f [] Assembly.start [] Assembly.start :=
  ⟨[], [], [], [], Assembly.shows_start, Assembly.shows_start, .top, .nil⟩

/-- The lenient reader adds data at once. -/
theorem addPending (h : Abreast f pending a opened b) {data : List Char}
    (hadd : a.addText (String.ofList data) = .ok a') :
    Abreast f (pending ++ [data]) a' opened b := by
  obtain ⟨frames, done, frames', done', ha, hb, hlevels, halike⟩ := h
  refine ⟨frames, done, frames', done', ?_, hb, hlevels, halike⟩
  rw [List.foldl_append]
  exact ha.addData hadd

/-- The strict reader adds a whole run of data. -/
theorem addRun (hf : ∀ a b, f (a ++ b) = f a ++ f b) (h : Abreast f pending a opened b)
    {data : List Char} (hadd : b.addText (String.ofList data) = .ok b')
    (hblank : (keptData pending).all Text.isBlank = data.all Text.isBlank)
    (hsame : (keptData pending).all Text.isBlank = false →
      f (String.ofList (keptData pending)) = f (String.ofList data)) :
    Abreast f [] a opened b' := by
  obtain ⟨frames, done, frames', done', ha, hb, hlevels, halike⟩ := h
  rw [foldl_addData] at ha
  exact ⟨frames, _, frames', _, ha, hb.addData hadd, hlevels, halike.addData hf hblank hsame⟩

/-- Both readers open an element. -/
theorem openElement (h : Abreast f [] a opened b) {spelled : String} {name : Name}
    {raw : List (String × String)} {attributes : List (Name × String)}
    (hspelled : Spells spelled.toList name) (htaken : List.Forall₂ (TakenAlike f) raw attributes)
    (hkeys : (raw.map (·.1)).Nodup) (hraw : a.openRaw spelled raw = .ok a') {tag : Tag}
    {known : List Declaration}
    (hresolve : Strict.resolveTag ((opened.head?.map (·.2)).getD []) name attributes =
      some (tag, known))
    (htag : b.openTag tag = .ok b') : Abreast f [] a' ((name, known) :: opened) b' := by
  obtain ⟨frames, done, frames', done', ha, hb, hlevels, halike⟩ := h
  obtain ⟨read, hread, hopen⟩ := Assembly.exists_resolved_of_openRaw hraw
  rw [ha.scopes_flatten] at hread
  obtain ⟨hsame, hscope⟩ := hlevels.inScope.enter hspelled htaken hkeys hread hresolve
  rcases ha.openTag read with ⟨-, -, herror⟩ | ⟨-, a₁, ha₁, hs⟩
  · rw [hopen] at herror
    cases herror
  rcases hb.openTag tag with ⟨-, -, herror⟩ | ⟨-, b₁, hb₁, hs'⟩
  · rw [htag] at herror
    cases herror
  obtain rfl : a' = a₁ := Except.ok.inj (hopen.symm.trans ha₁)
  obtain rfl : b' = b₁ := Except.ok.inj (htag.symm.trans hb₁)
  exact ⟨_, [], _, [], hs, hs',
    .inner hlevels halike ⟨hsame.base, hsame.uri, hsame.attributes⟩ hscope, .nil⟩

/-- Both readers close an element. -/
theorem close {level : Name × List Declaration} (h : Abreast f [] a (level :: opened) b)
    {written written' : String} (hclose : a.close written = .ok a')
    (hclose' : b.close written' = .ok b') : Abreast f [] a' opened b' := by
  obtain ⟨frames, done, frames', done', ha, hb, hlevels, halike⟩ := h
  cases hlevels with
  | inner houter hbefore htag hscope =>
    obtain ⟨a₁, ha₁, hs⟩ := ha.close written
    obtain ⟨b₁, hb₁, hs'⟩ := hb.close written'
    obtain rfl : a' = a₁ := Except.ok.inj (hclose.symm.trans ha₁)
    obtain rfl : b' = b₁ := Except.ok.inj (hclose'.symm.trans hb₁)
    rw [Frame.scope_cons, Frame.scope_cons] at halike
    exact ⟨_, _, _, _, hs, hs', houter,
      hbefore.concat (.element htag hscope.scopesAlike halike)⟩

/-- Both readers finish. -/
theorem finish (hf : ∀ a b, f (a ++ b) = f a ++ f b) (h : Abreast f [] a opened b)
    {d e : Document} (hd : a.finish = .ok d) (he : b.finish = .ok e) : d.Alike f e := by
  obtain ⟨frames, done, frames', done', ha, hb, hlevels, halike⟩ := h
  obtain ⟨rfl, hd, -⟩ := ha.finish hd
  obtain ⟨rfl, he, -⟩ := hb.finish he
  exact Document.Shows.alike hf hd he halike

end Abreast

/-! ## What a token may hold -/

namespace Strict.Token

/-- The attributes of a token as they are written. -/
def attributes : Token → List (Name × List Char)
  | .opening _ attributes _ => attributes
  | _ => []

/-- The attributes named `xmlns` in a token declare something: it is their whole name, or their
qualifier is `xmlns` again. -/
def DeclaresPlainly (t : Token) : Prop :=
  ∀ attr ∈ t.attributes, attr.1.base = "xmlns" →
    attr.1.qualifier = none ∨ attr.1.qualifier = some "xmlns"

instance (t : Token) : Decidable t.DeclaresPlainly :=
  inferInstanceAs (Decidable (∀ attr ∈ t.attributes, _ → _))

/-- The runs of data in a text, from one tag, comment or instruction to the next. -/
def runs (tokens : List Token) : List (List Token) :=
  tokens.splitOnP fun t => !t.isData

theorem modifyHead_runs (tokens : List Token) :
    (runs tokens).modifyHead ([] ++ ·) = runs tokens := by
  cases runs tokens <;> rfl

theorem runs_cons_of_data {t : Token} (h : t.isData = true) (run rest : List Token) :
    (runs (t :: rest)).modifyHead (run ++ ·) = (runs rest).modifyHead ((run ++ [t]) ++ ·) := by
  rw [runs, List.splitOnP_cons_eq_if_modifyHead, if_neg (by simp [h]), List.modifyHead_modifyHead]
  congr 1
  funext more
  simp

theorem runs_cons_of_not_data {t : Token} (h : t.isData = false) (run rest : List Token) :
    (runs (t :: rest)).modifyHead (run ++ ·) = run :: runs rest := by
  rw [runs, List.splitOnP_cons_eq_if_modifyHead, if_pos (by simp [h]), List.modifyHead_cons,
    List.append_nil]
  rfl

end Strict.Token

/-! ## Tokens one after the other -/

namespace Strict

theorem joinData_data_data (a b : List Char) (rest : List Event) :
    joinData (.data a :: .data b :: rest) = joinData (.data (a ++ b) :: rest) := by
  simp only [joinData]
  cases joinData rest with
  | nil => rfl
  | cons event others => cases event <;> simp

theorem joinData_data_of_not_data (a : List Char) {event : Event} (h : ∀ b, event ≠ .data b)
    (rest : List Event) :
    joinData (.data a :: event :: rest) = .data a :: event :: joinData rest := by
  cases event with
  | data b => exact absurd rfl (h b)
  | separator => rfl
  | opening name attributes empty => rfl
  | closing name => rfl

theorem Token.event_ne_data {t : Token} {event : Event} (hdata : t.isData = false)
    (hevent : t.event = some event) (b : List Char) : event ≠ .data b := by
  rintro rfl
  cases t with
  | passed => cases hevent
  | opening name attributes empty =>
    obtain ⟨values, -, hevent⟩ := Option.bind_eq_some_iff.1 hevent
    cases hevent
  | closing name => cases hevent
  | text raw => cases hdata
  | literal data => cases hdata

/-- Data that is empty changes nothing. -/
theorem foldlM_joinData_nil (events : List Event) (r : Reading) :
    (joinData (.data [] :: events)).foldlM Reading.step r =
      (joinData events).foldlM Reading.step r := by
  have hstep : r.step (.data []) = .ok r := by
    rw [Reading.step, Assembly.addText_blank rfl]
    rfl
  have hskip : ∀ more : List Event,
      (.data [] :: more).foldlM Reading.step r = more.foldlM Reading.step r := by
    intro more
    rw [List.foldlM_cons, hstep]
    rfl
  simp only [joinData]
  cases joinData events with
  | nil => exact hskip []
  | cons event others =>
    cases event with
    | data b => rfl
    | separator => exact hskip _
    | opening name attributes empty => exact hskip _
    | closing name => exact hskip _

end Strict

namespace Abreast

variable {r next : Lenient.Reading} {r' next' : Strict.Reading} {m : Markup} {t : Token}
  {event : Event}

/-- Data that the lenient reader takes while the strict one waits for the end of the run. -/
theorem stepData {pending : List (List Char)} {opened : List (Name × List Declaration)}
    {b : Assembly} (h : Abreast f pending r.assembly opened b) (hm : Matches m t)
    (hdata : t.isData = true) (hevent : t.event = some event) (hstep : r.step m = .ok next) :
    ∃ data normal, event = .data normal ∧ t.Decodes data normal ∧
      Abreast f (pending ++ [data]) next.assembly opened b := by
  cases hm with
  | @text raw =>
    rw [Lenient.Reading.step] at hstep
    split at hstep
    · rename_i data hunescape
      obtain ⟨us, hus, rfl⟩ := Option.map_eq_some_iff.1 hevent
      obtain ⟨a, ha, hstep⟩ := bind_eq_ok.1 hstep
      cases hstep
      exact ⟨data, _, rfl, .text hunescape hus, h.addPending ha⟩
    · cases hstep
  | @literal data =>
    cases hevent
    obtain ⟨a, ha, hstep⟩ := bind_eq_ok.1 hstep
    cases hstep
    exact ⟨data, _, rfl, .literal, h.addPending ha⟩
  | passed => cases hdata
  | closing => cases hdata
  | tag _ _ => cases hdata

/-- The attributes of a tag as both readers take them. -/
theorem takenAlike {inside : List Char} {attributes : List (Name × List Char)}
    (hshape : Strict.AttributesText inside attributes) {pairs : List (String × String)}
    (hread : Lenient.readAttributes [] inside = some pairs) {values : List (Name × String)}
    (hvalues : List.Forall₂ (fun attr value => ∃ us, Strict.units attr.2 = some us ∧
      value = (attr.1, String.ofList (Strict.normalizeValue us))) attributes values)
    (hplain : ∀ attr ∈ attributes, attr.1.base = "xmlns" →
      attr.1.qualifier = none ∨ attr.1.qualifier = some "xmlns")
    (hagree : ∀ attr ∈ attributes, ValueAgrees f attr.2) :
    List.Forall₂ (TakenAlike f) pairs values := by
  have hpairs := Lenient.readAttributes_shape hshape hread
  clear hshape hread
  induction hpairs generalizing values with
  | nil =>
    cases hvalues
    exact .nil
  | @cons attr pair rest more hpair _ ih =>
    obtain ⟨value, others, ⟨us, hus, rfl⟩, hothers, rfl⟩ := List.forall₂_cons_left_iff.1 hvalues
    rw [List.forall_mem_cons] at hplain hagree
    have hsame := hagree.1 _ us hpair.2 hus
    rw [String.ofList_toList] at hsame
    refine .cons ⟨hpair.1, ⟨hsame, ?_⟩, hplain.1⟩ (ih hothers hplain.2 hagree.2)
    rw [← String.toList_eq_nil_iff, ← String.toList_eq_nil_iff, String.toList_ofList,
      Strict.normalizeValue_eq_nil_iff, ← map_char_units hpair.2 hus, List.map_eq_nil_iff]

/-- A tag is opened by both readers, and closed again if nothing is inside of it. -/
theorem stepTag (h : Abreast f [] r.assembly r'.opened r'.assembly) {written inside : List Char}
    {name : Name} {attributes : List (Name × List Char)} {empty : Bool}
    (hname : Spells written name) (hshape : Strict.AttributesText inside attributes)
    (hevent : (Token.opening name attributes empty).event = some event)
    (hplain : (Token.opening name attributes empty).DeclaresPlainly)
    (hagree : ∀ attr ∈ attributes, ValueAgrees f attr.2)
    (hstep : r.step (if empty then .empty (written ++ inside) else .opening (written ++ inside)) =
      .ok next)
    (hstep' : r'.step event = .ok next') :
    Abreast f [] next.assembly next'.opened next'.assembly := by
  obtain ⟨values, hvalues, hevent⟩ := Option.bind_eq_some_iff.1 hevent
  cases hevent
  have htagName := Lenient.tagName_shape hname hshape
  have hkept : (written ++ inside).drop written.length = inside := List.drop_left
  -- what both readers do before they see whether the tag is empty
  have hopen : ∀ a, r.openElement (written ++ inside) = .ok a → ∀ tag known b,
      Strict.resolveTag ((r'.opened.head?.map (·.2)).getD []) name values = some (tag, known) →
      r'.assembly.openTag tag = .ok b → Abreast f [] a ((name, known) :: r'.opened) b := by
    intro a ha tag known b hresolve hb
    rw [Lenient.Reading.openElement, htagName, hkept] at ha
    split at ha
    · rename_i pairs hpairs
      have hvalues : List.Forall₂ (fun attr value => ∃ us, Strict.units attr.2 = some us ∧
          value = (attr.1, String.ofList (Strict.normalizeValue us))) attributes values :=
        (mapM_eq_some_iff.1 hvalues).imp fun attr value hvalue => by
          obtain ⟨us, hus, hvalue⟩ := Option.bind_eq_some_iff.1 hvalue
          exact ⟨us, hus, (Option.some.inj hvalue).symm⟩
      refine h.openElement ?_ (takenAlike hshape hpairs hvalues hplain hagree)
        (Lenient.readAttributes_nodup hpairs).2 ha hresolve hb
      rw [String.toList_ofList]
      exact hname
    · cases ha
  rw [Strict.Reading.step] at hstep'
  split at hstep'
  · cases hstep'
  · rename_i tag known hresolve
    obtain ⟨b, hb, hstep'⟩ := bind_eq_ok.1 hstep'
    cases empty with
    | true =>
      obtain ⟨a, ha, hstep⟩ := bind_eq_ok.1 hstep
      obtain ⟨a', ha', hstep⟩ := bind_eq_ok.1 hstep
      obtain ⟨b', hb', hstep'⟩ := bind_eq_ok.1 hstep'
      cases hstep
      cases hstep'
      exact (hopen a ha tag known b hresolve hb).close ha' hb'
    | false =>
      obtain ⟨a, ha, hstep⟩ := bind_eq_ok.1 hstep
      cases hstep
      cases hstep'
      exact hopen a ha tag known b hresolve hb

/-- What is no data is taken by both readers together. -/
theorem step (h : Abreast f [] r.assembly r'.opened r'.assembly) (hm : Matches m t)
    (hdata : t.isData = false) (hevent : t.event = some event) (hplain : t.DeclaresPlainly)
    (hagree : ∀ attr ∈ t.attributes, ValueAgrees f attr.2) (hstep : r.step m = .ok next)
    (hstep' : r'.step event = .ok next') :
    Abreast f [] next.assembly next'.opened next'.assembly := by
  cases hm with
  | text => cases hdata
  | literal => cases hdata
  | passed =>
    cases hevent
    cases hstep
    cases hstep'
    exact h
  | tag hname hshape => exact h.stepTag hname hshape hevent hplain hagree hstep hstep'
  | @closing written name =>
    cases hevent
    rw [Lenient.Reading.step] at hstep
    rw [Strict.Reading.step] at hstep'
    split at hstep
    · cases hstep
    · split at hstep
      · split at hstep'
        · rename_i hopened
          rw [hopened] at h
          split at hstep'
          · obtain ⟨a, ha, hstep⟩ := bind_eq_ok.1 hstep
            obtain ⟨b, hb, hstep'⟩ := bind_eq_ok.1 hstep'
            cases hstep
            cases hstep'
            exact h.close ha hb
          · cases hstep'
        · cases hstep'
      · cases hstep

/-- The strict reader adds a run of data when it ends. -/
theorem endRun (hf : ∀ a b, f (a ++ b) = f a ++ f b) {a : Assembly} {run : List Token}
    {pending : List (List Char × List Char)}
    (hrun : List.Forall₂ (fun t piece => Token.Decodes t piece.1 piece.2) run pending)
    (hagree : Token.RunAgrees f run)
    (h : Abreast f (pending.map (·.1)) a r'.opened r'.assembly)
    (hstep : r'.step (.data (pending.map (·.2)).flatten) = .ok next') :
    Abreast f [] a next'.opened next'.assembly := by
  obtain ⟨b, hb, hstep⟩ := bind_eq_ok.1 hstep
  cases hstep
  exact h.addRun hf hb (hagree pending hrun).1 (hagree pending hrun).2

/-- Behind a whole text both readers hold alike trees. `run` is the run of data that has not ended
yet, and `pending` is what the readers make of it; the induction is on the tokens that follow. -/
theorem foldlM (hf : ∀ a b, f (a ++ b) = f a ++ f b) {pieces : List Markup} {tokens : List Token}
    (hpieces : Corresponds pieces tokens) {events : List Event}
    (hevents : List.Forall₂ (fun t event => Token.event t = some event) tokens events)
    (hplain : ∀ t ∈ tokens, t.DeclaresPlainly)
    (hagree : ∀ t ∈ tokens, ∀ attr ∈ t.attributes, ValueAgrees f attr.2) {run : List Token}
    {pending : List (List Char × List Char)}
    (hrun : List.Forall₂ (fun t piece => Token.Decodes t piece.1 piece.2) run pending)
    (hruns : ∀ run' ∈ (Token.runs tokens).modifyHead (run ++ ·), Token.RunAgrees f run')
    (h : Abreast f (pending.map (·.1)) r.assembly r'.opened r'.assembly)
    (hread : pieces.foldlM Lenient.Reading.step r = .ok next)
    (hread' : (joinData (.data (pending.map (·.2)).flatten :: events)).foldlM
      Strict.Reading.step r' = .ok next') :
    Abreast f [] next.assembly next'.opened next'.assembly := by
  induction hpieces generalizing events run pending r r' with
  | nil =>
    cases hevents
    cases hread
    rw [Token.runs, List.splitOnP_nil] at hruns
    rw [joinData, joinData, List.foldlM_cons] at hread'
    obtain ⟨last, hlast, hread'⟩ := bind_eq_ok.1 hread'
    cases hread'
    exact h.endRun hf hrun (hruns run (by simp)) hlast
  | blank hblank _ ih =>
    rw [List.foldlM_cons, Lenient.step_blank hblank] at hread
    exact ih hevents hplain hagree hrun hruns h hread hread'
  | @cons m t pieces tokens hm _ ih =>
    obtain ⟨event, others, hevent, hothers, rfl⟩ := List.forall₂_cons_left_iff.1 hevents
    rw [List.forall_mem_cons] at hplain hagree
    rw [List.foldlM_cons] at hread
    obtain ⟨between, hstep, hread⟩ := bind_eq_ok.1 hread
    cases hdata : t.isData with
    | true =>
      obtain ⟨data, normal, rfl, hdecodes, h⟩ := h.stepData hm hdata hevent hstep
      rw [Token.runs_cons_of_data hdata] at hruns
      rw [Strict.joinData_data_data] at hread'
      have hgrown : List.Forall₂ (fun t piece => Token.Decodes t piece.1 piece.2) (run ++ [t])
          (pending ++ [(data, normal)]) := List.rel_append hrun (.cons hdecodes .nil)
      have h : Abreast f ((pending ++ [(data, normal)]).map (·.1)) between.assembly r'.opened
          r'.assembly := by
        rw [List.map_append]
        exact h
      exact ih hothers hplain.2 hagree.2 hgrown hruns h hread (by simpa using hread')
    | false =>
      rw [Token.runs_cons_of_not_data hdata, List.forall_mem_cons] at hruns
      rw [Strict.joinData_data_of_not_data _ (Token.event_ne_data hdata hevent),
        List.foldlM_cons] at hread'
      obtain ⟨ended, hend, hread'⟩ := bind_eq_ok.1 hread'
      rw [List.foldlM_cons] at hread'
      obtain ⟨taken, htaken, hread'⟩ := bind_eq_ok.1 hread'
      have h := (h.endRun hf hrun hruns.1 hend).step hm hdata hevent hplain.1 hagree.1 hstep htaken
      rw [← Strict.foldlM_joinData_nil] at hread'
      rw [← Token.modifyHead_runs] at hruns
      exact ih hothers hplain.2 hagree.2 .nil hruns.2 h hread hread'

end Abreast

namespace Document

/-- What two readers make of one text is alike where they read every run of data and every value
alike. -/
theorem alike_of_read (hf : ∀ a b, f (a ++ b) = f a ++ f b) {s : List Char} {d e : Document}
    (hd : Lenient.read s = .ok d) (he : Strict.read s = .ok e) {tokens : List Token}
    (htokens : Strict.tokens s = some tokens) (hplain : ∀ t ∈ tokens, t.DeclaresPlainly)
    (hagree : ∀ t ∈ tokens, ∀ attr ∈ t.attributes, ValueAgrees f attr.2)
    (hruns : ∀ run ∈ Token.runs tokens, Token.RunAgrees f run) : d.Alike f e := by
  obtain ⟨next, hread, hd⟩ := bind_eq_ok.1 hd
  obtain ⟨pieces, hpieces, hread⟩ := Lenient.corresponds_of_foldlM htokens hread
  rw [Strict.read, htokens, Option.bind_some] at he
  cases hevents : tokens.mapM Token.event with
  | none =>
    rw [hevents] at he
    cases he
  | some events =>
    rw [hevents] at he
    obtain ⟨next', hread', he⟩ := bind_eq_ok.1 he
    rw [← Strict.foldlM_joinData_nil] at hread'
    rw [← Token.modifyHead_runs] at hruns
    exact (Abreast.start.foldlM hf hpieces (mapM_eq_some_iff.1 hevents) hplain hagree .nil hruns
      hread hread').finish hf hd he

/-- The readers agree on every text that both of them read, as far as its blanks do not matter. They
agree in everything where the blanks in values are spaces, and where no run of data has a carriage
return or a blank piece beside others. -/
theorem readers_agree {text : String} {d e : Document} (hd : Document.read .lenient text = .ok d)
    (he : Document.read .strict text = .ok e) :
    ∃ tokens, Strict.tokens text.toList = some tokens ∧
      ((∀ t ∈ tokens, t.DeclaresPlainly) →
        d.Alike withoutBlanks e ∧
          ((∀ t ∈ tokens, ∀ attr ∈ t.attributes, IsSteadyValue attr.2) →
            (∀ run ∈ Token.runs tokens, Token.IsEven run) → d.Alike id e)) := by
  have hblank : Text.isAllBlank text = false := by
    cases hblank : Text.isAllBlank text with
    | false => rfl
    | true =>
      rw [Document.read, if_pos hblank] at hd
      cases hd
  rw [Document.read, hblank, if_neg Bool.false_ne_true] at hd
  rw [Document.read, hblank, if_neg Bool.false_ne_true] at he
  cases htokens : Strict.tokens text.toList with
  | none =>
    have he : Strict.read text.toList = .ok e := he
    rw [Strict.read, htokens] at he
    cases he
  | some tokens =>
    exact ⟨tokens, rfl, fun hplain =>
      ⟨alike_of_read withoutBlanks_append hd he htokens hplain
        (fun _ _ attr _ => valueAgrees_withoutBlanks attr.2)
        fun run _ => Token.runAgrees_withoutBlanks run,
      fun hsteady heven => alike_of_read (fun _ _ => rfl) hd he htokens hplain
        (fun t ht attr hattr => (hsteady t ht attr hattr).valueAgrees)
        fun run hrun => (heven run hrun).runAgrees⟩⟩

/-- A comment, a reference, a literal section and two qualifiers for one namespace. -/
def mixedText : String :=
  "<p:a xmlns:p=\"urn:p\">1<!--2--><q:b xmlns:q=\"urn:p\">&lt;<![CDATA[<]]></q:b></p:a>"

def mixedTokens : List Token :=
  [.opening ⟨some "p", "a"⟩ [(⟨some "xmlns", "p"⟩, "urn:p".toList)] false, .text ['1'], .passed,
    .opening ⟨some "q", "b"⟩ [(⟨some "xmlns", "q"⟩, "urn:p".toList)] false, .text "&lt;".toList,
    .literal ['<'], .closing ⟨some "q", "b"⟩, .closing ⟨some "p", "a"⟩]

theorem readers_agree_of_mixed :
    ∃ d e, Document.read .lenient mixedText = .ok d ∧ Document.read .strict mixedText = .ok e ∧
      d.Alike id e := by
  obtain ⟨d, hd⟩ : ∃ d, Document.read .lenient mixedText = .ok d := exists_eq_ok (by decide +kernel)
  obtain ⟨e, he⟩ : ∃ e, Document.read .strict mixedText = .ok e := exists_eq_ok (by decide +kernel)
  obtain ⟨tokens, htokens, hall⟩ := readers_agree hd he
  have hmixed : Strict.tokens mixedText.toList = some mixedTokens := by decide +kernel
  obtain rfl : tokens = mixedTokens := Option.some.inj (htokens.symm.trans hmixed)
  have hplain : ∀ t ∈ mixedTokens, t.DeclaresPlainly := by decide +kernel
  have hsteady : ∀ t ∈ mixedTokens, ∀ attr ∈ t.attributes, IsSteadyValue attr.2 := by
    decide +kernel
  have heven : ∀ run ∈ Token.runs mixedTokens, Token.IsEven run := by decide +kernel
  exact ⟨d, e, hd, he, (hall hplain).2 hsteady heven⟩

theorem exists_read {text : String} {p : Document → Document → Prop} [∀ d e, Decidable (p d e)]
    (h : ((Document.read .lenient text).toOption.bind fun d =>
      (Document.read .strict text).toOption.map fun e => decide (p d e)) = some true) :
    ∃ d e, Document.read .lenient text = .ok d ∧ Document.read .strict text = .ok e ∧ p d e := by
  obtain ⟨d, hd, h⟩ := Option.bind_eq_some_iff.1 h
  obtain ⟨e, he, h⟩ := Option.map_eq_some_iff.1 h
  exact ⟨d, e, toOption_eq_some.1 hd, toOption_eq_some.1 he, of_decide_eq_true h⟩

/-- Each condition is needed: a blank literal section is left out by the lenient reader alone, a tab
in a value is replaced by the strict reader alone, and an attribute that is called `xmlns` under
some qualifier declares the default namespace for the strict reader alone. -/
theorem readers_disagree :
    (∃ d e, Document.read .lenient "<a>one<![CDATA[ ]]>two</a>" = .ok d ∧
      Document.read .strict "<a>one<![CDATA[ ]]>two</a>" = .ok e ∧
      d.text (Node.ofPlace 1) = "onetwo" ∧ e.text (Node.ofPlace 1) = "one two") ∧
    (∃ d e, Document.read .lenient "<a b=\"1\t2\"/>" = .ok d ∧
      Document.read .strict "<a b=\"1\t2\"/>" = .ok e ∧
      (d.attributesOf (Node.ofPlace 1)).map d.text = ["1\t2"] ∧
      (e.attributesOf (Node.ofPlace 1)).map e.text = ["1 2"]) ∧
    ∃ d e, Document.read .lenient "<a xmlns:p=\"urn:p\" p:xmlns=\"urn:q\"/>" = .ok d ∧
      Document.read .strict "<a xmlns:p=\"urn:p\" p:xmlns=\"urn:q\"/>" = .ok e ∧
      d.uriOf (Node.ofPlace 1) = none ∧ e.uriOf (Node.ofPlace 1) = some "urn:q" :=
  ⟨exists_read (by decide +kernel), exists_read (by decide +kernel),
    exists_read (by decide +kernel)⟩

end Document

end SoapKit.Xml
