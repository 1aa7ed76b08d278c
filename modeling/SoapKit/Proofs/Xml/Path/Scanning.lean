import SoapKit.Proofs.Except
import SoapKit.Proofs.Text.Trimming
import SoapKit.Xml.Path.Compile

/-!
# Where separators count

A reader of an expression stands inside of some brackets and maybe inside of a quote, and a mark is
one that separates only where it stands outside of both (`Standing.split_eq_some`). What is read
before does not matter but for where it leaves the reader, so a text that leaves the reader outside
(`Neutral`) hides no mark behind it (`Standing.split_append_of_none`).

Inside of brackets the reader goes on as if it were outside, one bracket deeper, until the bracket
closes (`Standing.after_deeper`). So brackets with what they enclose are neutral.
-/

namespace SoapKit.Xml.Path

/-- Where a reader of an expression stands: inside of how many brackets, and of which quote. -/
structure Standing where
  depth : Nat
  quote : Option Char
  deriving DecidableEq

namespace Standing

/-- Outside of brackets and quotes. -/
def outside : Standing := ⟨0, none⟩

/-- One bracket deeper. -/
def deeper (p : Standing) : Standing := ⟨p.depth + 1, p.quote⟩

/-- Where a reader stands after a character. Inside of a quote only the same quote counts, and a
bracket that closes none is passed over. -/
def next (p : Standing) (c : Char) : Standing :=
  match p.quote with
  | some quote => ⟨p.depth, if c = quote then none else some quote⟩
  | none =>
    ⟨if c = '[' then p.depth + 1 else if c = ']' then p.depth - 1 else p.depth,
      if c = '\'' ∨ c = '"' then some c else none⟩

/-- Where a reader stands after a text. -/
def after (p : Standing) (s : List Char) : Standing :=
  s.foldl next p

/-- The pieces before and from the first mark that a reader meets outside of brackets and quotes. -/
def split (p : Standing) (mark : Char) (s : List Char) : Option (List Char × List Char) :=
  splitTop mark p.depth p.quote s

variable {p : Standing} {mark : Char} {s t before found : List Char}

@[simp] theorem after_nil : p.after [] = p := rfl

@[simp] theorem after_cons (c : Char) : p.after (c :: s) = (p.next c).after s := rfl

theorem after_append : p.after (s ++ t) = (p.after s).after t :=
  List.foldl_append

@[simp] theorem split_nil : p.split mark [] = none := by
  obtain ⟨depth, quote⟩ := p
  cases quote <;> rfl

theorem split_cons (c : Char) : p.split mark (c :: s) =
    if p = outside ∧ c = mark then some ([], c :: s)
    else ((p.next c).split mark s).map fun (before, found) => (c :: before, found) := by
  obtain ⟨depth, quote⟩ := p
  cases quote with
  | some quote => simp [split, splitTop, next, outside]
  | none => simp [split, splitTop, next, outside, and_comm]

/-! ## The first mark -/

theorem split_eq_some (h : p.split mark s = some (before, found)) :
    ∃ rest, found = mark :: rest ∧ s = before ++ found ∧ p.after before = outside ∧
      p.split mark before = none := by
  induction s generalizing p before with
  | nil => simp at h
  | cons c s ih =>
    rw [split_cons] at h
    split at h
    · rename_i hmark
      obtain ⟨hp, rfl⟩ := hmark
      cases h
      exact ⟨s, rfl, rfl, hp, split_nil⟩
    · rename_i hmark
      obtain ⟨⟨before', found'⟩, h, heq⟩ := Option.map_eq_some_iff.1 h
      cases heq
      obtain ⟨rest, hfound, hs, hafter, hnone⟩ := ih h
      refine ⟨rest, hfound, by rw [hs]; rfl, hafter, ?_⟩
      rw [split_cons, if_neg hmark, hnone]
      rfl

/-- Behind a text without a mark outside a reader goes on from where the text leaves it. -/
theorem split_append_of_none (h : p.split mark s = none) : p.split mark (s ++ t) =
    ((p.after s).split mark t).map fun (before, found) => (s ++ before, found) := by
  induction s generalizing p with
  | nil => simp
  | cons c s ih =>
    rw [split_cons] at h
    split at h
    · cases h
    · rename_i hmark
      rw [List.cons_append, split_cons, if_neg hmark, ih (Option.map_eq_none_iff.1 h),
        Option.map_map]
      rfl

/-- A mark that was found is found whatever comes behind. -/
theorem split_append_of_some (h : p.split mark s = some (before, found)) :
    p.split mark (s ++ t) = some (before, found ++ t) := by
  obtain ⟨rest, rfl, rfl, hafter, hnone⟩ := split_eq_some h
  rw [List.append_assoc, split_append_of_none hnone, hafter, List.cons_append, split_cons,
    if_pos ⟨rfl, rfl⟩]
  simp

theorem split_of_not_mem (h : mark ∉ s) : p.split mark s = none := by
  induction s generalizing p with
  | nil => exact split_nil
  | cons c s ih =>
    rw [List.mem_cons, not_or] at h
    rw [split_cons, if_neg fun hc => h.1 hc.2.symm, ih h.2]
    rfl

/-! ## Inside of brackets -/

theorem next_deeper {c : Char} (h : ¬ (p = outside ∧ c = ']')) :
    p.deeper.next c = (p.next c).deeper := by
  obtain ⟨depth, quote⟩ := p
  cases quote with
  | some quote => rfl
  | none =>
    simp only [next, deeper, outside, mk.injEq, and_true, not_and'] at h ⊢
    split
    · rfl
    · split
      · rename_i hc
        have := h hc
        omega
      · rfl

/-- Up to the bracket that closes, reading inside of a bracket is reading outside of it. -/
theorem after_deeper (h : p.split ']' s = none) : p.deeper.after s = (p.after s).deeper := by
  induction s generalizing p with
  | nil => rfl
  | cons c s ih =>
    rw [split_cons] at h
    split at h
    · cases h
    · rename_i hc
      rw [after_cons, next_deeper hc, ih (Option.map_eq_none_iff.1 h), after_cons]

/-- A bracket, what it encloses and the bracket that closes it leave a reader outside. -/
theorem after_brackets (h : outside.split ']' s = some (before, found)) :
    outside.after ('[' :: before ++ [']']) = outside := by
  obtain ⟨rest, -, -, hafter, hnone⟩ := split_eq_some h
  have hinside : (outside.next '[').after before = (outside.after before).deeper :=
    after_deeper hnone
  rw [List.cons_append, after_cons, after_append, hinside, hafter]
  rfl

end Standing

open Standing

/-! ## Neutral texts -/

/-- A text that leaves a reader outside of brackets and quotes when it finds it there. -/
def Neutral (s : List Char) : Prop :=
  outside.after s = outside

variable {s t : List Char}

theorem neutral_nil : Neutral [] := rfl

theorem Neutral.append_iff (h : Neutral s) : Neutral (s ++ t) ↔ Neutral t := by
  rw [Neutral, Neutral, after_append, show outside.after s = outside from h]

theorem Neutral.append (h : Neutral s) (ht : Neutral t) : Neutral (s ++ t) :=
  h.append_iff.2 ht

/-- Behind a neutral text without a mark outside the next mark is one that separates. -/
theorem split_mark {mark : Char} (hs : Neutral s) (h : outside.split mark s = none) :
    outside.split mark (s ++ mark :: t) = some (s, mark :: t) := by
  rw [split_append_of_none h, show outside.after s = outside from hs, split_cons, if_pos ⟨rfl, rfl⟩]
  simp

/-- A character that is no bracket and no quote. -/
def IsPlain (c : Char) : Prop :=
  c ∉ ['[', ']', '\'', '"']

instance (c : Char) : Decidable (IsPlain c) :=
  inferInstanceAs (Decidable (c ∉ _))

/-- A written text is found plain by going through it. -/
theorem forall_isPlain_of_all (h : (s.all fun c => decide (IsPlain c)) = true) :
    ∀ c ∈ s, IsPlain c :=
  fun c hc => of_decide_eq_true (List.all_eq_true.1 h c hc)

theorem neutral_of_plain (h : ∀ c ∈ s, IsPlain c) : Neutral s := by
  induction s with
  | nil => rfl
  | cons c s ih =>
    rw [List.forall_mem_cons] at h
    have hc := h.1
    simp only [IsPlain, List.mem_cons, List.not_mem_nil, or_false, not_or] at hc
    have hnext : outside.next c = outside := by simp [next, outside, hc]
    rw [Neutral, after_cons, hnext]
    exact ih h.2

theorem isPlain_of_isBlank {c : Char} (h : Text.isBlank c = true) : IsPlain c := by
  intro hmem
  have hnone : ['[', ']', '\'', '"'].all (Text.isBlank · == false) = true := by decide
  have := List.all_eq_true.1 hnone c hmem
  simp [h] at this

theorem neutral_of_blank (h : ∀ c ∈ s, Text.isBlank c = true) : Neutral s :=
  neutral_of_plain fun c hc => isPlain_of_isBlank (h c hc)

/-- Blanks around a text do not matter. -/
theorem Neutral.of_trim (h : Neutral (Text.trim s)) : Neutral s := by
  obtain ⟨lead, trail, hlead, htrail, heq⟩ := Text.padded_trim s
  rw [heq]
  exact ((neutral_of_blank hlead).append h).append (neutral_of_blank htrail)

/-! ## What is read is neutral -/

variable {bindings : Bindings}

theorem isPlain_of_isValidName (h : isValidName s = true) : ∀ c ∈ s, IsPlain c := by
  intro c hc hmem
  have hnone : ['[', ']', '\'', '"'].all (fun c =>
      (Text.isAlphanumeric c || c == '_' || c == '-' || c == '.') == false) = true := by
    decide +kernel
  rw [isValidName, Bool.and_eq_true] at h
  have hbad := List.all_eq_true.1 hnone c hmem
  rw [List.all_eq_true.1 h.2 c hc] at hbad
  cases hbad

theorem isPlain_of_compileTest {test : NodeTest} (h : compileTest bindings s = .ok test) :
    ∀ c ∈ s, IsPlain c := by
  unfold compileTest at h
  split at h
  · rename_i hs
    rw [hs]
    exact forall_isPlain_of_all (by decide)
  · split at h
    · rename_i hs
      rw [hs]
      exact forall_isPlain_of_all (by decide)
    · split at h
      · rename_i hs
        rw [hs]
        exact forall_isPlain_of_all (by decide)
      · split at h
        · rename_i qualifier base hsplit
          obtain ⟨rfl, -⟩ := Text.splitOnce_eq_some hsplit
          split at h
          · cases h
          · rename_i hqualifier
            have hqualifier := isPlain_of_isValidName (by simpa using hqualifier)
            have hbase : ∀ c ∈ base, IsPlain c := by
              split at h
              · rename_i hstar
                rw [hstar]
                exact forall_isPlain_of_all (by decide)
              · split at h
                · rename_i hvalid
                  exact isPlain_of_isValidName hvalid
                · cases h
            exact List.forall_mem_append.2 ⟨hqualifier, List.forall_mem_cons.2 ⟨by decide, hbase⟩⟩
        · split at h
          · rename_i hvalid
            exact isPlain_of_isValidName hvalid
          · cases h

/-- A character of a text is a blank or stands in what trimming leaves. -/
theorem forall_isPlain_of_trim (h : ∀ c ∈ Text.trim s, IsPlain c) : ∀ c ∈ s, IsPlain c := by
  obtain ⟨lead, trail, hlead, htrail, heq⟩ := Text.padded_trim s
  rw [heq, List.forall_mem_append, List.forall_mem_append]
  exact ⟨⟨fun c hc => isPlain_of_isBlank (hlead c hc), h⟩,
    fun c hc => isPlain_of_isBlank (htrail c hc)⟩

/-- The axes by their written names. -/
def axisNames : List String :=
  ["child", "descendant", "descendant-or-self", "self", "parent", "attribute"]

theorem isPlain_of_axis? {axis : Axis} (h : axis? s = some axis) : ∀ c ∈ s, IsPlain c := by
  have hword : String.ofList (Text.trim s) ∈ axisNames := by
    unfold axis? at h
    split at h
    case h_7 => cases h
    all_goals
      rename_i heq
      rw [heq]
      decide
  have hplain : (axisNames.all fun word => word.toList.all fun c => decide (IsPlain c)) = true := by
    decide
  have htrim := forall_isPlain_of_all (List.all_eq_true.1 hplain _ hword)
  rw [String.toList_ofList] at htrim
  exact forall_isPlain_of_trim htrim

theorem Neutral.of_trimStart (h : Neutral (Text.trimStart s)) : Neutral s := by
  have hlead : Neutral (s.takeWhile Text.isBlank) :=
    neutral_of_blank fun c hc => List.mem_takeWhile_imp hc
  have hsplit : s.takeWhile Text.isBlank ++ Text.trimStart s = s := List.takeWhile_append_dropWhile
  rw [← hsplit]
  exact hlead.append h

theorem compilePredicates_neutral {predicates : List Predicate}
    (h : compilePredicates bindings s = .ok predicates) : Neutral s := by
  fun_induction compilePredicates bindings s generalizing predicates with
  | case1 => exact neutral_nil
  | case2 inner inside found hsplit ih =>
    obtain ⟨predicate, _, h⟩ := bind_eq_ok.1 h
    obtain ⟨others, hothers, -⟩ := bind_eq_ok.1 h
    obtain ⟨rest, rfl, rfl, -, -⟩ := split_eq_some (p := outside) hsplit
    have hbrackets : Neutral ('[' :: inside ++ [']']) := after_brackets hsplit
    have hrest := hbrackets.append (ih hothers).of_trimStart
    simpa using hrest
  | case3 => cases h
  | case4 => cases h

theorem isPlain_of_test {axis : Axis} {predicates : List Predicate} {step : Step}
    (h : (do return (⟨axis, ← compileTest bindings (Text.trim s), predicates⟩ : Step)) =
      Except.ok step) : (∀ c ∈ s, IsPlain c) ∧ step.predicates = predicates := by
  obtain ⟨test, htest, h⟩ := bind_eq_ok.1 h
  cases h
  exact ⟨forall_isPlain_of_trim (isPlain_of_compileTest htest), rfl⟩

theorem append_of_split {mark : Char} {head brackets : List Char}
    (h : (outside.split mark s).getD (s, []) = (head, brackets)) : s = head ++ brackets := by
  cases hsplit : outside.split mark s with
  | none =>
    rw [hsplit] at h
    cases h
    exact (List.append_nil s).symm
  | some parts =>
    rw [hsplit] at h
    obtain rfl : parts = (head, brackets) := h
    obtain ⟨-, -, hs, -, -⟩ := split_eq_some hsplit
    exact hs

/-- A step without blanks around it is plain text with predicates behind it, if any. -/
theorem compileStep_cases {step : Step} (h : compileStep bindings s = .ok step) :
    ∃ head brackets, Text.trim s = head ++ brackets ∧ (∀ c ∈ head, IsPlain c) ∧
      compilePredicates bindings brackets = .ok step.predicates := by
  simp only [compileStep] at h
  split at h
  · cases h
  · split at h
    · rename_i hpoint
      cases h
      exact ⟨['.'], [], hpoint, forall_isPlain_of_all (by decide), by rw [compilePredicates]⟩
    · split at h
      · rename_i hpoints
        cases h
        refine ⟨['.', '.'], [], hpoints, forall_isPlain_of_all (by decide), ?_⟩
        rw [compilePredicates]
      · generalize hparts : (splitTop '[' 0 none (Text.trim s)).getD (Text.trim s, []) = parts at h
        obtain ⟨head, brackets⟩ := parts
        refine ⟨head, brackets, append_of_split hparts, ?_⟩
        obtain ⟨predicates, hpredicates, h⟩ := bind_eq_ok.1 h
        split at h
        · rename_i rest hhead
          obtain ⟨htest, rfl⟩ := isPlain_of_test h
          rw [show head = '@' :: rest from hhead]
          exact ⟨List.forall_mem_cons.2 ⟨by decide, htest⟩, hpredicates⟩
        · split at h
          · rename_i name rest hsplit
            split at h
            · rename_i axis haxis
              obtain ⟨htest, rfl⟩ := isPlain_of_test h
              have hhead : head = name ++ "::".toList ++ rest := Text.splitAtText_eq_some hsplit
              rw [hhead, List.forall_mem_append, List.forall_mem_append]
              have hcolons : ∀ c ∈ "::".toList, IsPlain c := forall_isPlain_of_all (by decide)
              exact ⟨⟨⟨isPlain_of_axis? haxis, hcolons⟩, htest⟩, hpredicates⟩
            · cases h
          · obtain ⟨htest, rfl⟩ := isPlain_of_test h
            exact ⟨htest, hpredicates⟩

theorem compileStep_congr (h : Text.trim s = Text.trim t) :
    compileStep bindings s = compileStep bindings t := by
  simp only [compileStep, h]

theorem compileStep_neutral {step : Step} (h : compileStep bindings s = .ok step) : Neutral s := by
  obtain ⟨head, brackets, htrim, hhead, hpredicates⟩ := compileStep_cases h
  refine Neutral.of_trim ?_
  rw [htrim]
  exact (neutral_of_plain hhead).append (compilePredicates_neutral hpredicates)

/-- A separator is plain, whether it is a double one or not. -/
theorem exists_dropSeparator (rest : List Char) : ∃ separator, (∀ c ∈ separator, IsPlain c) ∧
    '/' :: rest = separator ++ (dropSeparator ('/' :: rest)).2 := by
  unfold dropSeparator
  split
  · rename_i heq
    cases heq
    exact ⟨['/', '/'], forall_isPlain_of_all (by decide), rfl⟩
  · exact ⟨['/'], forall_isPlain_of_all (by decide), rfl⟩

theorem compileSteps_neutral {steps : List Step} (h : compileSteps bindings s = .ok steps) :
    Neutral s := by
  fun_induction compileSteps bindings s generalizing steps with
  | case1 s _ =>
    obtain ⟨step, hstep, -⟩ := bind_eq_ok.1 h
    exact compileStep_neutral hstep
  | case2 s before found hsplit ih =>
    obtain ⟨step, hstep, h⟩ := bind_eq_ok.1 h
    obtain ⟨others, hothers, -⟩ := bind_eq_ok.1 h
    obtain ⟨rest, rfl, rfl, -, -⟩ := split_eq_some (p := outside) hsplit
    obtain ⟨separator, hseparator, heq⟩ := exists_dropSeparator rest
    rw [heq]
    exact (compileStep_neutral hstep).append ((neutral_of_plain hseparator).append (ih hothers))

/-! ## Paths -/

/-- What may stand in front of the steps of a path: whether it makes the path absolute, and the step
that it stands for, if any. -/
inductive Lead : List Char → Bool → List Step → Prop where
  | deep : Lead ['/', '/'] true [anywhere]
  | root : Lead ['/'] true []
  | none : Lead [] false []

theorem Lead.plain {lead : List Char} {absolute : Bool} {first : List Step}
    (h : Lead lead absolute first) : ∀ c ∈ lead, IsPlain c := by
  cases h <;> exact forall_isPlain_of_all (by decide)

/-- Steps begin with something, and not with a separator. -/
theorem exists_cons_of_compileSteps {steps : List Step} (h : compileSteps bindings s = .ok steps) :
    ∃ c rest, s = c :: rest ∧ c ≠ '/' := by
  have hempty (step : Step) : compileStep bindings [] ≠ .ok step := by
    rintro ⟨⟩
  cases s with
  | nil =>
    unfold compileSteps at h
    obtain ⟨step, hstep, -⟩ := bind_eq_ok.1 h
    exact absurd hstep (hempty step)
  | cons c rest =>
    refine ⟨c, rest, rfl, ?_⟩
    rintro rfl
    unfold compileSteps at h
    obtain ⟨step, hstep, -⟩ := bind_eq_ok.1 h
    exact absurd hstep (hempty step)

theorem compilePath_eq_ok_iff {path : LocationPath} : compilePath bindings s = .ok path ↔
    (Text.trim s = ['/'] ∧ path = ⟨true, []⟩) ∨
      ∃ lead absolute first rest steps, Lead lead absolute first ∧ Text.trim s = lead ++ rest ∧
        compileSteps bindings rest = .ok steps ∧ path = ⟨absolute, first ++ steps⟩ := by
  constructor
  · intro h
    unfold compilePath at h
    split at h
    · cases h
    · rename_i htrim
      cases h
      exact .inl ⟨htrim, rfl⟩
    · cases h
    · rename_i htrim
      obtain ⟨steps, hsteps, h⟩ := bind_eq_ok.1 h
      cases h
      exact .inr ⟨_, _, _, _, steps, .deep, htrim, hsteps, rfl⟩
    · rename_i htrim
      obtain ⟨steps, hsteps, h⟩ := bind_eq_ok.1 h
      cases h
      exact .inr ⟨_, _, _, _, steps, .root, htrim, hsteps, rfl⟩
    · obtain ⟨steps, hsteps, h⟩ := bind_eq_ok.1 h
      cases h
      exact .inr ⟨_, _, _, _, steps, .none, rfl, hsteps, rfl⟩
  · rintro (⟨htrim, rfl⟩ | ⟨lead, absolute, first, rest, steps, hlead, htrim, hsteps, rfl⟩)
    · rw [compilePath, htrim]
      rfl
    · obtain ⟨c, more, rfl, hc⟩ := exists_cons_of_compileSteps hsteps
      rw [compilePath, htrim]
      cases hlead <;> simp [hsteps, hc]

theorem neutral_trim_of_compilePath {path : LocationPath} (h : compilePath bindings s = .ok path) :
    Neutral (Text.trim s) := by
  obtain ⟨htrim, -⟩ | ⟨lead, absolute, first, rest, steps, hlead, htrim, hsteps, -⟩ :=
    compilePath_eq_ok_iff.1 h
  · rw [htrim]
    exact neutral_of_plain (forall_isPlain_of_all (by decide))
  · rw [htrim]
    exact (neutral_of_plain hlead.plain).append (compileSteps_neutral hsteps)

theorem compilePath_neutral {path : LocationPath} (h : compilePath bindings s = .ok path) :
    Neutral s :=
  (neutral_trim_of_compilePath h).of_trim

/-! ## Unions -/

theorem compile_eq_ok_iff {text : String} {expression : Expression} :
    compile bindings text = .ok expression ↔
      List.Forall₂ (fun piece path => compilePath bindings piece = .ok path)
        (piecesTop '|' text.toList) expression.paths := by
  rw [← mapM_eq_ok_iff, compile]
  constructor
  · intro h
    split at h
    · rename_i paths hpaths
      cases h
      exact hpaths
    · cases h
    · cases h
  · intro h
    rw [h]

theorem neutral_of_piecesTop (h : ∀ piece ∈ piecesTop '|' s, Neutral piece) : Neutral s := by
  fun_induction piecesTop '|' s with
  | case1 s before found hsplit ih =>
    rw [List.forall_mem_cons] at h
    obtain ⟨rest, rfl, rfl, -, -⟩ := split_eq_some (p := outside) hsplit
    have hbar : Neutral ['|'] := rfl
    exact h.1.append (hbar.append (ih h.2))
  | case2 s _ => exact h s (List.mem_singleton_self s)

theorem neutral_of_mem_pieces {text : String} {expression : Expression}
    (h : compile bindings text = .ok expression) :
    ∀ piece ∈ piecesTop '|' text.toList, Neutral piece := by
  intro piece hpiece
  obtain ⟨path, -, hpath⟩ := exists_mem_of_forall₂ (compile_eq_ok_iff.1 h).flip hpiece
  exact compilePath_neutral hpath

/-- An expression that is read leaves a reader outside of brackets and quotes. -/
theorem compile_neutral {text : String} {expression : Expression}
    (h : compile bindings text = .ok expression) : Neutral text.toList :=
  neutral_of_piecesTop (neutral_of_mem_pieces h)

end SoapKit.Xml.Path
