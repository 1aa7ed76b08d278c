import SoapKit.Proofs.Xml.Pieces

/-!
# Which markup makes a document

A reader hands over tags whose namespaces are known, closing tags and character data. What becomes
of such markup is said without the assembly, by what is balanced in it: no element is open behind
balanced markup, and the innermost open element is the one whose opening has balanced markup behind
it.

**Theorem (`build_markup`).** A document is finished exactly from one balanced element with blanks
around it. All other markup is refused, and the reason is the first thing that is wrong with it.

The markup in front of every step accounts for the assembly (`Assembly.Follows`): its balanced parts
are closed, and the openings between these are the frames. A step either goes on like that or
offends (`Follows.step`), so a run stops at the first offence (`run_cases`).
-/

namespace SoapKit.Xml

/-- What a reader meets: a tag, a closing tag under its written name, or character data. -/
inductive Markup where
  | opening (tag : Tag)
  | closing (written : String)
  | data (text : String)

namespace Markup

/-- The step that markup asks of an assembly. -/
def step : Markup → Assembly.Step
  | .opening tag => .openTag tag
  | .closing written => .close written
  | .data text => .addText text

/-! ## What is wrong with markup -/

/-- Every opening has a closing behind it, and every closing an opening before it. -/
inductive Balanced : List Markup → Prop where
  | nil : Balanced []
  | data (text : String) {rest : List Markup} : Balanced rest → Balanced (.data text :: rest)
  | element (tag : Tag) (written : String) {inside rest : List Markup} : Balanced inside →
      Balanced rest → Balanced (.opening tag :: inside ++ .closing written :: rest)

/-- Nothing but blank character data. -/
def Blank (markup : List Markup) : Prop :=
  ∀ m ∈ markup, ∃ text, m = .data text ∧ Text.isAllBlank text = true

/-- One balanced element with blanks around it. -/
def IsElement (markup : List Markup) : Prop :=
  ∃ before tag inside written after,
    markup = before ++ .opening tag :: inside ++ .closing written :: after ∧
      Blank before ∧ Balanced inside ∧ Blank after

/-- The innermost element that is open behind markup has a tag. -/
def Innermost (markup : List Markup) (tag : Tag) : Prop :=
  ∃ before inside, markup = before ++ .opening tag :: inside ∧ Balanced inside

/-- An element was opened, whether or not it was closed since. -/
def HasOpening (markup : List Markup) : Prop :=
  ∃ tag, .opening tag ∈ markup

/-- What a piece of markup does wrong behind other markup; no element is open where this is
balanced. -/
inductive Offends (before : List Markup) : Markup → ParseError → Prop where
  | opening {tag : Tag} : Balanced before → HasOpening before →
      Offends before (.opening tag) .multipleRoots
  | closing {written : String} : Balanced before →
      Offends before (.closing written) (.unexpectedEnd written)
  | data {text : String} : Balanced before → Text.isAllBlank text = false →
      Offends before (.data text) .textOutsideRoot

/-- What is missing when markup ends. -/
inductive Lacks (markup : List Markup) : ParseError → Prop where
  | closing {tag : Tag} : Innermost markup tag → Lacks markup (.unclosed tag.name.text)
  | element : ¬ HasOpening markup → Lacks markup .empty

/-- No piece of markup does anything wrong behind those before it. -/
def Faultless (markup : List Markup) : Prop :=
  ∀ before m after e, markup = before ++ m :: after → ¬ Offends before m e

/-- The first thing that is wrong with markup. -/
inductive FirstFault (markup : List Markup) : ParseError → Prop where
  | within {before : List Markup} {m : Markup} {after : List Markup} {e : ParseError} :
      markup = before ++ m :: after → Faultless before → Offends before m e → FirstFault markup e
  | atEnd {e : ParseError} : Faultless markup → Lacks markup e → FirstFault markup e

variable {markup before inside rest : List Markup} {tag : Tag} {m : Markup} {e : ParseError}

/-! ## Balanced markup -/

theorem Balanced.append (h : Balanced before) (hrest : Balanced rest) :
    Balanced (before ++ rest) := by
  induction h with
  | nil => exact hrest
  | data text _ ih => exact .data text ih
  | element tag written hinside _ _ ih =>
    rw [List.append_assoc, List.cons_append]
    exact .element tag written hinside ih

/-- The tags of the open elements, innermost first, when markup has been gone through. -/
def openTags : List Tag → List Markup → List Tag
  | tags, [] => tags
  | tags, .opening tag :: rest => openTags (tag :: tags) rest
  | tags, .closing _ :: rest => openTags tags.tail rest
  | tags, .data _ :: rest => openTags tags rest

theorem openTags_append (tags : List Tag) (before rest : List Markup) :
    openTags tags (before ++ rest) = openTags (openTags tags before) rest := by
  induction before generalizing tags with
  | nil => rfl
  | cons m before ih => cases m <;> exact ih _

theorem Balanced.openTags_eq (h : Balanced markup) (tags : List Tag) :
    openTags tags markup = tags := by
  induction h generalizing tags with
  | nil => rfl
  | data text _ ih => exact ih tags
  | @element tag written inside rest _ _ ihInside ihRest =>
    rw [openTags_append, openTags, ihInside]
    exact ihRest tags

theorem Innermost.head?_openTags (h : Innermost markup tag) :
    (openTags [] markup).head? = some tag := by
  obtain ⟨before, inside, rfl, hinside⟩ := h
  rw [openTags_append, openTags, hinside.openTags_eq]
  rfl

theorem Innermost.hasOpening (h : Innermost markup tag) : HasOpening markup := by
  obtain ⟨before, inside, rfl, -⟩ := h
  exact ⟨tag, by simp⟩

/-! ## There is one first fault -/

theorem Offends.unique {e' : ParseError} (h : Offends before m e) (h' : Offends before m e') :
    e = e' := by
  cases h <;> cases h' <;> rfl

theorem Balanced.not_lacks (h : Balanced markup) (hopening : HasOpening markup) :
    ¬ Lacks markup e := by
  intro hlacks
  cases hlacks with
  | closing hinnermost =>
    have hhead := hinnermost.head?_openTags
    rw [h.openTags_eq] at hhead
    cases hhead
  | element hnone => exact hnone hopening

theorem Lacks.unique {e' : ParseError} (h : Lacks markup e) (h' : Lacks markup e') : e = e' := by
  cases h with
  | closing h =>
    cases h' with
    | closing h' =>
      rw [Option.some.inj (h.head?_openTags.symm.trans h'.head?_openTags)]
    | element h' => exact absurd h.hasOpening h'
  | element h =>
    cases h' with
    | closing h' => exact absurd h'.hasOpening h
    | element h' => rfl

/-- Faultless markup does not go on behind what offends. -/
theorem Faultless.length_le {front back : List Markup} (h : Faultless front)
    (hm : Offends before m e) (heq : before ++ m :: rest = front ++ back) :
    front.length ≤ before.length := by
  by_contra hlt
  have hprefix : before ++ [m] <+: front := by
    refine List.prefix_of_prefix_length_le ⟨rest, ?_⟩ ⟨back, rfl⟩ (by simp; omega)
    rw [List.append_assoc, ← heq]
    rfl
  obtain ⟨more, rfl⟩ := hprefix
  exact h before m more e (List.append_assoc ..) hm

theorem FirstFault.unique {e' : ParseError} (h : FirstFault markup e) (h' : FirstFault markup e') :
    e = e' := by
  cases h with
  | within hmarkup hbefore hm =>
    cases h' with
    | within hmarkup' hbefore' hm' =>
      have heq := hmarkup.symm.trans hmarkup'
      obtain ⟨rfl, hrest⟩ := List.append_inj heq
        (le_antisymm (hbefore.length_le hm' heq.symm) (hbefore'.length_le hm heq))
      cases hrest
      exact hm.unique hm'
    | atEnd hmarkup' _ => exact absurd hm (hmarkup' _ _ _ _ hmarkup)
  | atEnd hmarkup hlacks =>
    cases h' with
    | within hmarkup' _ hm' => exact absurd hm' (hmarkup _ _ _ _ hmarkup')
    | atEnd _ hlacks' => exact hlacks.unique hlacks'

/-! ## Faultless markup -/

theorem Faultless.concat (h : Faultless before) (hm : ∀ e, ¬ Offends before m e) :
    Faultless (before ++ [m]) := by
  intro front m' after e hmarkup
  rcases List.eq_nil_or_concat after with rfl | ⟨init, last, rfl⟩
  · obtain ⟨rfl, heq⟩ := List.append_inj' hmarkup rfl
    cases heq
    exact hm e
  · rw [List.concat_eq_append, ← List.cons_append, ← List.append_assoc] at hmarkup
    exact h front m' init e (List.append_inj' hmarkup rfl).1

/-- Behind an element that is closed nothing but blanks is faultless. -/
theorem Balanced.blank_of_faultless (hbefore : Balanced before) (hopening : HasOpening before)
    (h : Balanced rest) (hfaultless : Faultless (before ++ rest)) : Blank rest := by
  induction h generalizing before with
  | nil => exact List.forall_mem_nil _
  | @data text rest _ ih =>
    have hblank : Text.isAllBlank text = true := by
      by_contra hseen
      exact hfaultless before _ rest _ rfl (.data hbefore (Bool.not_eq_true _ ▸ hseen))
    refine List.forall_mem_cons.2 ⟨⟨text, rfl, hblank⟩, ?_⟩
    obtain ⟨tag, htag⟩ := hopening
    refine ih (hbefore.append (.data text .nil)) ⟨tag, List.mem_append_left _ htag⟩ ?_
    rwa [List.append_assoc]
  | @element tag written inside rest _ _ _ _ =>
    exact absurd (.opening hbefore hopening) (hfaultless before _ _ _ rfl)

theorem Blank.balanced (h : Blank markup) : Balanced markup := by
  induction markup with
  | nil => exact .nil
  | cons m rest ih =>
    obtain ⟨⟨text, rfl, -⟩, hrest⟩ := List.forall_mem_cons.1 h
    exact .data text (ih hrest)

/-- Balanced markup without a fault that opens an element is that element and blanks. -/
theorem Balanced.isElement (hbefore : Blank before) (h : Balanced rest)
    (hfaultless : Faultless (before ++ rest)) (hopening : HasOpening rest) :
    IsElement (before ++ rest) := by
  induction h generalizing before with
  | nil =>
    obtain ⟨tag, htag⟩ := hopening
    cases htag
  | @data text rest _ ih =>
    have hblank : Text.isAllBlank text = true := by
      by_contra hseen
      exact hfaultless before _ rest _ rfl (.data hbefore.balanced (Bool.not_eq_true _ ▸ hseen))
    obtain ⟨tag, htag⟩ := hopening
    have hbefore' : Blank (before ++ [.data text]) :=
      List.forall_mem_append.2 ⟨hbefore, List.forall_mem_singleton.2 ⟨text, rfl, hblank⟩⟩
    have hmore := ih hbefore' (by rwa [List.append_assoc]) ⟨tag, by simpa using htag⟩
    rwa [List.append_assoc] at hmore
  | @element tag written inside rest hinside hrest _ _ =>
    have hclosed : Balanced (before ++ (.opening tag :: inside ++ [.closing written])) :=
      hbefore.balanced.append (.element tag written hinside .nil)
    refine ⟨before, tag, inside, written, rest, by simp, hbefore, hinside, ?_⟩
    exact hclosed.blank_of_faultless ⟨tag, by simp⟩ hrest (by simpa using hfaultless)

/-! ## The elements that are open -/

/-- The tags of the open elements, innermost first: between their openings markup is balanced. -/
inductive Opens : List Markup → List Tag → Prop where
  | none {markup : List Markup} : Balanced markup → Opens markup []
  | element {before inside : List Markup} {tags : List Tag} (tag : Tag) : Opens before tags →
      Balanced inside → Opens (before ++ .opening tag :: inside) (tag :: tags)

variable {tags : List Tag}

theorem Opens.append (h : Opens before tags) (hrest : Balanced rest) :
    Opens (before ++ rest) tags := by
  cases h with
  | none h => exact .none (h.append hrest)
  | element tag h hinside =>
    rw [List.append_assoc, List.cons_append]
    exact .element tag h (hinside.append hrest)

theorem Opens.close (h : Opens before (tag :: tags)) (written : String) :
    Opens (before ++ [.closing written]) tags := by
  cases h with
  | @element before inside _ _ h hinside =>
    rw [List.append_assoc]
    exact h.append (.element tag written hinside .nil)

theorem Opens.balanced (h : Opens markup []) : Balanced markup := by
  cases h with
  | none h => exact h

theorem Opens.innermost (h : Opens markup (tag :: tags)) : Innermost markup tag := by
  cases h with
  | @element before inside _ _ _ hinside => exact ⟨before, inside, rfl, hinside⟩

/-- Where an element is open nothing offends. -/
theorem Opens.not_offends (h : Opens markup (tag :: tags)) : ¬ Offends markup m e := by
  intro hm
  have hbalanced : Balanced markup := by cases hm <;> assumption
  have hhead := h.innermost.head?_openTags
  rw [hbalanced.openTags_eq] at hhead
  cases hhead

end Markup

/-! ## Assemblies behind markup -/

namespace Assembly

open SoapKit.Xml.Tree SoapKit.Xml.Frame Markup

variable {a a' : Assembly} {markup : List Markup} {m : Markup} {e : ParseError}

/-- The assembly behind markup: its frames are the elements that are open there, and it has a root
as soon as one was opened. -/
structure Follows (a : Assembly) (markup : List Markup) (tags : List Tag) : Prop where
  shows : ∃ frames done, a.Shows frames done ∧ frames.map (·.tag) = tags.map Tag.sorted
  opens : Opens markup tags
  root : a.hasRoot = true ↔ HasOpening markup

theorem follows_start : Assembly.start.Follows [] [] where
  shows := ⟨[], [], shows_start, rfl⟩
  opens := .none .nil
  root := by simp [Assembly.start, HasOpening]

theorem hasOpening_concat_of_ne (hm : ∀ tag, m ≠ .opening tag) :
    HasOpening (markup ++ [m]) ↔ HasOpening markup := by
  refine exists_congr fun tag => ?_
  rw [List.mem_append, List.mem_singleton, or_iff_left fun heq => hm tag heq.symm]

theorem Shows.hasRoot_of_cons {f : Frame} {outer : List Frame} {done : List Tree}
    (h : a.Shows (f :: outer) done) : a.hasRoot = true := by
  rw [h.root, plug_isEmpty_of_cons]
  rfl

/-- Behind markup a piece of it is either taken or offends. -/
def TakesOrRefuses (a : Assembly) (markup : List Markup) (m : Markup) : Prop :=
  (∃ a' tags, a.step m.step = .ok a' ∧ a'.Follows (markup ++ [m]) tags ∧
      ∀ e, ¬ Offends markup m e) ∨
    ∃ e, a.step m.step = .error e ∧ Offends markup m e

variable {tags : List Tag}

theorem Follows.step_opening (h : a.Follows markup tags) (tag : Tag) :
    a.TakesOrRefuses markup (.opening tag) := by
  obtain ⟨⟨frames, done, hs, hframes⟩, hopens, hroot⟩ := h
  rcases hs.openTag tag with ⟨rfl, hdone, herror⟩ | ⟨htop, a', ha', hs'⟩
  · obtain rfl : tags = [] := List.map_eq_nil_iff.1 hframes.symm
    have hopening : HasOpening markup := hroot.1 (by simpa [hs.root, plug] using hdone)
    exact .inr ⟨_, herror, .opening hopens.balanced hopening⟩
  · refine .inl ⟨a', tag :: tags, ha', ⟨⟨_, _, hs', ?_⟩, .element tag hopens .nil, ?_⟩, ?_⟩
    · rw [List.map_cons, List.map_cons, hframes]
    · exact iff_of_true hs'.hasRoot_of_cons ⟨tag, by simp⟩
    · cases tags with
      | cons outer tags => exact fun e => hopens.not_offends
      | nil =>
        obtain rfl : frames = [] := List.map_eq_nil_iff.1 hframes
        intro e hoffends
        cases hoffends with
        | opening _ hopening =>
          have hsome := hroot.2 hopening
          rw [hs.root, htop rfl] at hsome
          cases hsome

theorem Follows.step_closing (h : a.Follows markup tags) (written : String) :
    a.TakesOrRefuses markup (.closing written) := by
  obtain ⟨⟨frames, done, hs, hframes⟩, hopens, hroot⟩ := h
  cases tags with
  | nil =>
    obtain rfl : frames = [] := List.map_eq_nil_iff.1 hframes
    exact .inr ⟨_, hs.close_nil written, .closing hopens.balanced⟩
  | cons tag tags =>
    obtain ⟨f, outer, rfl, -, houter⟩ := List.map_eq_cons_iff.1 hframes
    obtain ⟨a', ha', hs'⟩ := hs.close written
    refine .inl ⟨a', tags, ha', ⟨⟨_, _, hs', houter⟩, hopens.close written, ?_⟩, fun e =>
      hopens.not_offends⟩
    rw [hasOpening_concat_of_ne (by simp), ← hroot, hs'.root, hs.root]
    rfl

theorem Follows.step_data (h : a.Follows markup tags) (text : String) :
    a.TakesOrRefuses markup (.data text) := by
  obtain ⟨⟨frames, done, hs, hframes⟩, hopens, hroot⟩ := h
  have hsame : HasOpening (markup ++ [.data text]) ↔ HasOpening markup :=
    hasOpening_concat_of_ne (by simp)
  have hopens' : Opens (markup ++ [.data text]) tags := hopens.append (.data text .nil)
  cases hblank : Text.isAllBlank text with
  | true =>
    refine .inl ⟨a, tags, addText_blank hblank, ⟨⟨_, _, hs, hframes⟩, hopens', ?_⟩, ?_⟩
    · rw [hsame, hroot]
    · intro e hoffends
      cases hoffends with
      | data _ hseen =>
        rw [hblank] at hseen
        cases hseen
  | false =>
    cases tags with
    | nil =>
      obtain rfl : frames = [] := List.map_eq_nil_iff.1 hframes
      exact .inr ⟨_, hs.addText_nil hblank, .data hopens.balanced hblank⟩
    | cons tag tags =>
      obtain ⟨f, outer, rfl, -⟩ := List.map_eq_cons_iff.1 hframes
      obtain ⟨a', ha', hs'⟩ := hs.addText hblank (List.cons_ne_nil _ _)
      refine .inl ⟨a', _, ha', ⟨⟨_, _, hs', hframes⟩, hopens', ?_⟩, fun e =>
        hopens.not_offends⟩
      rw [hsame, ← hroot]
      exact iff_of_true hs'.hasRoot_of_cons hs.hasRoot_of_cons

theorem Follows.step (h : a.Follows markup tags) (m : Markup) : a.TakesOrRefuses markup m := by
  cases m with
  | opening tag => exact h.step_opening tag
  | closing written => exact h.step_closing written
  | data text => exact h.step_data text

/-- A run goes through faultless markup, or stops at the first piece that offends. -/
theorem run_cases (markup : List Markup) :
    (∃ a tags, (markup.map Markup.step).foldlM Assembly.step start = .ok a ∧
        a.Follows markup tags ∧ Faultless markup) ∨
      ∃ before m after e, (markup.map Markup.step).foldlM Assembly.step start = .error e ∧
        markup = before ++ m :: after ∧ Faultless before ∧ Offends before m e := by
  induction markup using List.reverseRecOn with
  | nil => exact .inl ⟨start, [], rfl, follows_start, by simp [Faultless]⟩
  | append_singleton markup m ih =>
    rw [List.map_append, List.foldlM_append]
    rcases ih with ⟨a, tags, ha, hfollows, hfaultless⟩ |
        ⟨before, m', after, e, he, rfl, hfaultless, hoffends⟩
    · rw [ha]
      rcases hfollows.step m with ⟨a', tags', ha', hfollows', hm⟩ | ⟨e, he, hoffends⟩
      · refine .inl ⟨a', tags', ?_, hfollows', hfaultless.concat hm⟩
        show a.step m.step >>= pure = _
        rw [ha']
        rfl
      · refine .inr ⟨markup, m, [], e, ?_, rfl, hfaultless, hoffends⟩
        show a.step m.step >>= pure = _
        rw [he]
        rfl
    · refine .inr ⟨before, m', after ++ [m], e, ?_, by simp, hfaultless, hoffends⟩
      rw [he]
      rfl

/-! ## The end of a run -/

theorem Shows.finish_of_cons {f : Frame} {outer : List Frame} {done : List Tree}
    (h : a.Shows (f :: outer) done) : a.finish = .error (.unclosed f.tag.name.text) := by
  have hplaces : a.openPlaces = innermost (f :: outer) :: opened outer := h.places
  rw [Assembly.finish, hplaces]
  simp only [h.entry_current]
  rfl

theorem Shows.finish_of_nil {done : List Tree} (h : a.Shows [] done) (hroot : a.hasRoot = false) :
    a.finish = .error .empty := by
  have hplaces : a.openPlaces = [] := h.places
  simp [Assembly.finish, hplaces, hroot]

/-- At the end either everything is closed and an element was opened, or something is missing. -/
theorem Follows.finish (h : a.Follows markup tags) :
    (∃ d, a.finish = .ok d ∧ Balanced markup ∧ HasOpening markup) ∨
      ∃ e, a.finish = .error e ∧ Lacks markup e := by
  obtain ⟨⟨frames, done, hs, hframes⟩, hopens, hroot⟩ := h
  cases tags with
  | cons tag tags =>
    obtain ⟨f, outer, rfl, htag, -⟩ := List.map_eq_cons_iff.1 hframes
    refine .inr ⟨_, hs.finish_of_cons, ?_⟩
    have hlacks : Lacks markup (.unclosed tag.name.text) := .closing hopens.innermost
    rw [htag]
    exact hlacks
  | nil =>
    obtain rfl : frames = [] := List.map_eq_nil_iff.1 hframes
    cases hr : a.hasRoot with
    | false =>
      refine .inr ⟨_, hs.finish_of_nil hr, .element fun hopening => ?_⟩
      rw [hroot.2 hopening] at hr
      cases hr
    | true =>
      have hdone : done ≠ [] := by
        rintro rfl
        rw [hs.root] at hr
        cases hr
      exact .inl ⟨_, hs.finish_eq hdone, hopens.balanced, hroot.1 hr⟩

/-! ## An element with blanks around it -/

theorem foldlM_blank (h : Blank markup) (a : Assembly) :
    (markup.map Markup.step).foldlM Assembly.step a = .ok a := by
  induction markup with
  | nil => rfl
  | cons m rest ih =>
    obtain ⟨⟨text, rfl, hblank⟩, hrest⟩ := List.forall_mem_cons.1 h
    have hstep : a.step (Markup.data text).step = .ok a := addText_blank hblank
    rw [List.map_cons, List.foldlM_cons, hstep]
    exact ih hrest

theorem Shows.openTag_of_ne {frames : List Frame} {done : List Tree} (h : a.Shows frames done)
    (hframes : frames = [] → done = []) (tag : Tag) :
    ∃ a', a.openTag tag = .ok a' ∧ a'.Shows (⟨tag.sorted, done⟩ :: frames) [] := by
  rcases h.openTag tag with ⟨rfl, hdone, -⟩ | ⟨-, opened⟩
  · exact absurd (hframes rfl) hdone
  · exact opened

/-- An element is gone through if its inside is. -/
theorem foldlM_element {b c d : Assembly} {tag : Tag} {written : String}
    {inside rest : List Markup} (hb : a.openTag tag = .ok b)
    (hc : (inside.map Markup.step).foldlM Assembly.step b = .ok c)
    (hd : c.close written = .ok d) :
    ((.opening tag :: inside ++ .closing written :: rest).map Markup.step).foldlM Assembly.step a =
      (rest.map Markup.step).foldlM Assembly.step d := by
  have hopening : a.step (Markup.opening tag).step = .ok b := hb
  have hclosing : c.step (Markup.closing written).step = .ok d := hd
  rw [List.cons_append, List.map_cons, List.foldlM_cons, hopening, List.map_append, List.map_cons]
  show List.foldlM _ b _ = _
  rw [List.foldlM_append, hc]
  show List.foldlM _ c _ = _
  rw [List.foldlM_cons, hclosing]
  rfl

/-- Inside of an open element balanced markup is gone through. -/
theorem Shows.foldlM_balanced {frames : List Frame} {done : List Tree} (h : a.Shows frames done)
    (hframes : frames ≠ []) (hmarkup : Balanced markup) :
    ∃ a' done', (markup.map Markup.step).foldlM Assembly.step a = .ok a' ∧
      a'.Shows frames done' := by
  induction hmarkup generalizing a frames done with
  | nil => exact ⟨a, done, rfl, h⟩
  | data text _ ih =>
    obtain ⟨b, hb, hs⟩ := h.exists_addText hframes text
    obtain ⟨a', done', ha', hs'⟩ := ih hs hframes
    refine ⟨a', done', ?_, hs'⟩
    rw [List.map_cons, List.foldlM_cons]
    exact (congrArg (· >>= _) hb).trans ha'
  | @element tag written inside rest _ _ ihInside ihRest =>
    obtain ⟨b, hb, hopened⟩ := h.openTag_of_ne (absurd · hframes) tag
    obtain ⟨c, held, hc, hheld⟩ := ihInside hopened (List.cons_ne_nil _ _)
    obtain ⟨d, hd, hclosed⟩ := hheld.close written
    obtain ⟨a', done', ha', hs⟩ := ihRest hclosed hframes
    refine ⟨a', done', ?_, hs⟩
    exact (foldlM_element hb hc hd).trans ha'

/-- A document is finished from an element with blanks around it. -/
theorem exists_build_of_isElement (h : IsElement markup) :
    ∃ d, Document.build (markup.map Markup.step) = .ok d := by
  obtain ⟨before, tag, inside, written, after, rfl, hbefore, hinside, hafter⟩ := h
  obtain ⟨b, hb, hopened⟩ := shows_start.openTag_of_ne (fun _ => rfl) tag
  obtain ⟨c, held, hc, hheld⟩ := hopened.foldlM_balanced (List.cons_ne_nil _ _) hinside
  obtain ⟨d, hd, hclosed⟩ := hheld.close written
  have hrun : ((before ++ .opening tag :: inside ++ .closing written :: after).map
      Markup.step).foldlM Assembly.step start = .ok d := by
    rw [List.append_assoc, List.map_append, List.foldlM_append, foldlM_blank hbefore]
    exact (foldlM_element hb hc hd).trans (foldlM_blank hafter d)
  refine ⟨_, bind_eq_ok.2 ⟨d, hrun, hclosed.finish_eq ?_⟩⟩
  simp

end Assembly

namespace Document

open Markup

/-- Building ends well only behind faultless and balanced markup, and else with its first fault. -/
theorem build_cases (markup : List Markup) :
    ((∃ d, build (markup.map Markup.step) = .ok d) ∧ Faultless markup ∧ Balanced markup ∧
        HasOpening markup) ∨
      ∃ e, build (markup.map Markup.step) = .error e ∧ FirstFault markup e := by
  rcases Assembly.run_cases markup with ⟨a, tags, ha, hfollows, hfaultless⟩ |
      ⟨before, m, after, e, he, hmarkup, hbefore, hoffends⟩
  · have hbuild : build (markup.map Markup.step) = a.finish := by
      rw [build, ha]
      rfl
    rw [hbuild]
    rcases hfollows.finish with ⟨d, hd, hbalanced, hopening⟩ | ⟨e, he, hlacks⟩
    · exact .inl ⟨⟨d, hd⟩, hfaultless, hbalanced, hopening⟩
    · exact .inr ⟨e, he, .atEnd hfaultless hlacks⟩
  · refine .inr ⟨e, ?_, .within hmarkup hbefore hoffends⟩
    rw [build, he]
    rfl

/-- Markup makes a document exactly if it is one balanced element with blanks around it. Other
markup is refused for the first thing that is wrong with it: a second element at the top, character
data or a closing outside of every element, or, at the end, an open element or none at all. -/
theorem build_markup (markup : List Markup) :
    ((∃ d, build (markup.map Markup.step) = .ok d) ↔ IsElement markup) ∧
      ∀ e, build (markup.map Markup.step) = .error e ↔ FirstFault markup e := by
  have hcases := build_cases markup
  refine ⟨⟨?_, Assembly.exists_build_of_isElement⟩, fun e => ⟨fun he => ?_, fun h => ?_⟩⟩
  · rintro ⟨d, hd⟩
    obtain ⟨-, hfaultless, hbalanced, hopening⟩ | ⟨e, he, -⟩ := hcases
    · exact hbalanced.isElement (List.forall_mem_nil _) hfaultless hopening
    · rw [hd] at he
      cases he
  · obtain ⟨⟨d, hd⟩, -⟩ | ⟨e', he', hfault⟩ := hcases
    · rw [hd] at he
      cases he
    · rw [he'] at he
      cases he
      exact hfault
  · obtain ⟨-, hfaultless, hbalanced, hopening⟩ | ⟨e', he', hfault⟩ := hcases
    · cases h with
      | within hmarkup _ hoffends => exact absurd hoffends (hfaultless _ _ _ _ hmarkup)
      | atEnd _ hlacks => exact absurd hlacks (hbalanced.not_lacks hopening)
    · rw [he', hfault.unique h]

end Document

end SoapKit.Xml
