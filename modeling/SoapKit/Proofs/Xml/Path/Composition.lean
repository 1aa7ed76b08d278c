import SoapKit.Proofs.Xml.Path.Enumeration
import SoapKit.Proofs.Xml.Path.Scanning

/-!
# Expressions put together

Expressions can be put together as texts, and what they select goes together likewise
(`compile_together`). With a bar between them two expressions are a union. With a separator between
them a path and a relative path are one path, which goes on from every node of the first; with a
double separator it goes on from the descendants of these nodes too.

On the side of the texts this holds because whatever is read is neutral: it hides no mark behind it.
On the side of the nodes a path has what its steps reach, so steps can be put behind steps, and
sorting in between makes no difference.
-/

namespace SoapKit.Xml.Path

open Standing

variable {bindings : Bindings} {mark : Char} {s t before rest : List Char}

/-! ## Texts with a separator between them -/

theorem piecesTop_of_some (h : outside.split mark s = some (before, mark :: rest)) :
    piecesTop mark s = before :: piecesTop mark rest := by
  rw [piecesTop]
  split
  · rename_i hsplit
    cases hsplit.symm.trans h
    rfl
  · rename_i hsplit
    cases hsplit.symm.trans h

theorem piecesTop_of_none (h : outside.split mark s = none) : piecesTop mark s = [s] := by
  rw [piecesTop]
  split
  · rename_i hsplit
    cases hsplit.symm.trans h
  · rfl

/-- A neutral text and another one, with a mark between them, have the pieces of both. -/
theorem piecesTop_append (hmark : Neutral [mark]) (hs : Neutral s) :
    piecesTop mark (s ++ mark :: t) = piecesTop mark s ++ piecesTop mark t := by
  fun_induction piecesTop mark s with
  | case1 s before found hsplit ih =>
    obtain ⟨rest, rfl, rfl, hbefore, -⟩ := split_eq_some (p := outside) hsplit
    have hbefore : Neutral before := hbefore
    have hrest : Neutral rest := hmark.append_iff.1 (hbefore.append_iff.1 hs)
    rw [piecesTop_of_some (split_append_of_some (p := outside) hsplit), List.cons_append]
    exact congrArg _ (ih hrest)
  | case2 s hsplit =>
    rw [piecesTop_of_some (split_mark hs hsplit)]
    rfl

theorem compileSteps_of_none (h : outside.split '/' s = none) :
    compileSteps bindings s = (do return [← compileStep bindings s]) := by
  rw [compileSteps]
  split
  · rfl
  · rename_i hsplit
    cases hsplit.symm.trans h

theorem compileSteps_of_some (h : outside.split '/' s = some (before, '/' :: rest)) :
    compileSteps bindings s = (do
      let step ← compileStep bindings before
      let others ← compileSteps bindings (dropSeparator ('/' :: rest)).2
      return if (dropSeparator ('/' :: rest)).1 then step :: anywhere :: others
        else step :: others) := by
  rw [compileSteps]
  split
  · rename_i hsplit
    cases hsplit.symm.trans h
  · rename_i hsplit
    cases hsplit.symm.trans h
    rfl

/-- What separates steps, and the step that stands for it. -/
inductive Separator : List Char → List Step → Prop where
  | single : Separator ['/'] []
  | double : Separator ['/', '/'] [anywhere]

variable {separator v : List Char} {between steps others : List Step}

theorem Separator.neutral (h : Separator separator between) : Neutral separator := by
  cases h <;> rfl

theorem Separator.counts (h : Separator separator between) :
    ∀ step ∈ between, step.CountsFromOne := by
  cases h <;> simp [anywhere_counts]

theorem Separator.not_mem_bar (h : Separator separator between) : '|' ∉ separator := by
  cases h <;> decide

theorem dropSeparator_append (h : rest ≠ []) : dropSeparator ('/' :: (rest ++ t)) =
    ((dropSeparator ('/' :: rest)).1, (dropSeparator ('/' :: rest)).2 ++ t) := by
  obtain ⟨c, more, rfl⟩ := List.exists_cons_of_ne_nil h
  by_cases hc : c = '/'
  · rw [hc]
    rfl
  · simp [dropSeparator, hc]

theorem not_mem_of_blank (hv : ∀ c ∈ v, Text.isBlank c = true) (hmark : Text.isBlank mark = false) :
    mark ∉ v := fun hmem => by
  rw [hv mark hmem] at hmark
  cases hmark

/-- Blanks in front of steps are blanks in front of the first step. -/
theorem compileSteps_of_blank (hv : ∀ c ∈ v, Text.isBlank c = true) :
    compileSteps bindings (v ++ s) = compileSteps bindings s := by
  have hnone : outside.split '/' v = none := split_of_not_mem (not_mem_of_blank hv (by decide))
  have hafter : outside.after v = outside := neutral_of_blank hv
  have hsplit := split_append_of_none (t := s) hnone
  rw [hafter] at hsplit
  have hstep (u : List Char) : compileStep bindings (v ++ u) = compileStep bindings u :=
    compileStep_congr (Text.Padded.trim_eq_trim ⟨v, [], hv, by simp, by simp⟩)
  cases hs : outside.split '/' s with
  | none =>
    rw [hs] at hsplit
    rw [compileSteps_of_none hsplit, compileSteps_of_none hs, hstep]
  | some parts =>
    obtain ⟨before, found⟩ := parts
    obtain ⟨rest, rfl, -, -, -⟩ := split_eq_some hs
    rw [hs] at hsplit
    rw [compileSteps_of_some hsplit, compileSteps_of_some hs, hstep]

/-- A step, a separator and more steps. -/
theorem compileSteps_cons {step : Step} (hs : compileStep bindings s = .ok step)
    (hnone : outside.split '/' s = none) (ht : compileSteps bindings t = .ok others)
    (hseparator : Separator separator between) :
    compileSteps bindings (s ++ (separator ++ t)) = .ok (step :: (between ++ others)) := by
  obtain ⟨c, more, rfl, hc⟩ := exists_cons_of_compileSteps ht
  have hneutral := compileStep_neutral hs
  cases hseparator with
  | single =>
    have hdrop : dropSeparator ('/' :: c :: more) = (false, c :: more) := by
      simp [dropSeparator, hc]
    rw [List.cons_append, List.nil_append, compileSteps_of_some (split_mark hneutral hnone), hs,
      hdrop, ht]
    rfl
  | double =>
    have hdrop : dropSeparator ('/' :: '/' :: c :: more) = (true, c :: more) := rfl
    rw [List.cons_append, List.cons_append, List.nil_append,
      compileSteps_of_some (split_mark hneutral hnone), hs, hdrop, ht]
    rfl

/-- Steps, a separator and more steps, with any blanks in front of the separator. -/
theorem compileSteps_append (hs : compileSteps bindings s = .ok steps)
    (ht : compileSteps bindings t = .ok others) (hseparator : Separator separator between)
    (hv : ∀ c ∈ v, Text.isBlank c = true) :
    compileSteps bindings (s ++ (v ++ separator ++ t)) = .ok (steps ++ between ++ others) := by
  fun_induction compileSteps bindings s generalizing steps with
  | case1 s hsplit =>
    obtain ⟨step, hstep, h⟩ := bind_eq_ok.1 hs
    cases h
    have hnone : outside.split '/' (s ++ v) = none := by
      rw [split_append_of_none (p := outside) hsplit,
        split_of_not_mem (not_mem_of_blank hv (by decide))]
      rfl
    have hstep' : compileStep bindings (s ++ v) = .ok step := by
      rw [← hstep]
      exact compileStep_congr (Text.Padded.trim_eq_trim ⟨[], v, by simp, hv, by simp⟩)
    rw [List.append_assoc v, ← List.append_assoc s, compileSteps_cons hstep' hnone ht hseparator]
    rfl
  | case2 s before found hsplit ih =>
    obtain ⟨step, hstep, h⟩ := bind_eq_ok.1 hs
    obtain ⟨more, hmore, h⟩ := bind_eq_ok.1 h
    obtain ⟨rest, rfl, rfl, -, -⟩ := split_eq_some (p := outside) hsplit
    have hrest : rest ≠ [] := by
      rintro rfl
      obtain ⟨c, more, heq, -⟩ := exists_cons_of_compileSteps hmore
      cases heq
    have hsplit' : outside.split '/' (before ++ '/' :: rest ++ (v ++ separator ++ t)) =
        some (before, '/' :: (rest ++ (v ++ separator ++ t))) :=
      split_append_of_some (p := outside) hsplit
    rw [compileSteps_of_some hsplit', dropSeparator_append hrest, hstep, ih hmore]
    cases h
    show Except.ok _ = Except.ok _
    split <;> simp

theorem stopsAt_append_of_ne_nil {p : Char → Bool} (h : Text.StopsAt p s) (hne : s ≠ []) :
    Text.StopsAt p (s ++ t) := by
  obtain ⟨c, rest, rfl⟩ := List.exists_cons_of_ne_nil hne
  exact Text.stopsAt_cons (h c rfl)

/-- Blanks stay where they are between two texts that are trimmed and not empty. -/
theorem trim_append (separator : List Char) (hs : Text.trim s ≠ []) (ht : Text.trim t ≠ []) :
    ∃ v w, (∀ c ∈ v, Text.isBlank c = true) ∧ (∀ c ∈ w, Text.isBlank c = true) ∧
      Text.trim (s ++ separator ++ t) = Text.trim s ++ (v ++ separator ++ (w ++ Text.trim t)) := by
  obtain ⟨lead, v, hlead, hv, hseq⟩ := Text.padded_trim s
  obtain ⟨w, trail, hw, htrail, hteq⟩ := Text.padded_trim t
  refine ⟨v, w, hv, hw, ?_⟩
  have hpadded : Text.Padded (Text.trim s ++ (v ++ separator ++ (w ++ Text.trim t)))
      (s ++ separator ++ t) := by
    refine ⟨lead, trail, hlead, htrail, ?_⟩
    calc s ++ separator ++ t =
        (lead ++ Text.trim s ++ v) ++ separator ++ (w ++ Text.trim t ++ trail) := by
          rw [← hseq, ← hteq]
      _ = _ := by simp only [List.append_assoc]
  refine hpadded.trim_eq (Text.trim_eq_of_stopsAt ?_ ?_)
  · exact stopsAt_append_of_ne_nil (Text.stopsAt_of_trim_eq (Text.trim_trim s)) hs
  · simp only [List.reverse_append, List.append_assoc]
    exact stopsAt_append_of_ne_nil (Text.stopsAt_reverse_of_trim_eq (Text.trim_trim t)) (by simpa)

/-- A path that has steps, a separator and a relative path. -/
theorem compilePath_append {path : LocationPath} (hs : compilePath bindings s = .ok path)
    (hroot : Text.trim s ≠ ['/']) (ht : compilePath bindings t = .ok ⟨false, others⟩)
    (hseparator : Separator separator between) :
    compilePath bindings (s ++ separator ++ t) =
      .ok ⟨path.absolute, path.steps ++ between ++ others⟩ := by
  obtain ⟨hslash, -⟩ | ⟨lead, absolute, first, rest, steps, hlead, htrim, hsteps, rfl⟩ :=
    compilePath_eq_ok_iff.1 hs
  · exact absurd hslash hroot
  obtain ⟨-, heq⟩ | ⟨lead', absolute', first', rest', steps', hlead', htrim', hsteps', heq⟩ :=
    compilePath_eq_ok_iff.1 ht
  · cases heq
  cases heq
  cases hlead'
  rw [List.nil_append] at htrim'
  have hsne : Text.trim s ≠ [] := by
    obtain ⟨c, more, hcons, -⟩ := exists_cons_of_compileSteps hsteps
    rw [htrim, hcons]
    simp
  have htne : Text.trim t ≠ [] := by
    obtain ⟨c, more, hcons, -⟩ := exists_cons_of_compileSteps hsteps'
    rw [htrim', hcons]
    simp
  obtain ⟨v, w, hv, hw, hwhole⟩ := trim_append separator hsne htne
  refine compilePath_eq_ok_iff.2 (.inr ⟨lead, absolute, first,
    rest ++ (v ++ separator ++ (w ++ rest')), steps ++ between ++ steps', hlead, ?_, ?_, by simp⟩)
  · rw [hwhole, htrim, htrim', List.append_assoc]
  · exact compileSteps_append hsteps ((compileSteps_of_blank hw).trans hsteps') hseparator hv

/-! ## Expressions of one path -/

theorem piecesTop_eq_singleton_iff : piecesTop mark s = [t] ↔
    outside.split mark s = none ∧ s = t := by
  cases h : outside.split mark s with
  | none => simp [piecesTop_of_none h]
  | some parts =>
    obtain ⟨before, found⟩ := parts
    obtain ⟨rest, rfl, -, -, -⟩ := split_eq_some h
    have hrest : piecesTop mark rest ≠ [] := by
      unfold piecesTop
      split <;> simp
    simp [piecesTop_of_some h, hrest]

theorem compile_singleton_iff {a : String} {path : LocationPath} :
    compile bindings a = .ok ⟨[path]⟩ ↔
      outside.split '|' a.toList = none ∧ compilePath bindings a.toList = .ok path := by
  rw [compile_eq_ok_iff, List.forall₂_cons_right_iff]
  constructor
  · rintro ⟨piece, rest, hpath, hrest, hpieces⟩
    cases hrest
    obtain ⟨hnone, rfl⟩ := piecesTop_eq_singleton_iff.1 hpieces
    exact ⟨hnone, hpath⟩
  · rintro ⟨hnone, hpath⟩
    exact ⟨_, [], hpath, .nil, piecesTop_eq_singleton_iff.2 ⟨hnone, rfl⟩⟩

variable {a b : String} {first second : Expression}

/-- With a bar between them two expressions are read as one with the paths of both. -/
theorem compile_union (ha : compile bindings a = .ok first) (hb : compile bindings b = .ok second) :
    compile bindings (a ++ "|" ++ b) = .ok ⟨first.paths ++ second.paths⟩ := by
  have hpieces : piecesTop '|' (a ++ "|" ++ b).toList =
      piecesTop '|' a.toList ++ piecesTop '|' b.toList := by
    have hbar : Neutral ['|'] := rfl
    rw [← piecesTop_append hbar (compile_neutral ha)]
    simp
  rw [compile_eq_ok_iff, hpieces]
  exact List.rel_append (compile_eq_ok_iff.1 ha) (compile_eq_ok_iff.1 hb)

/-- With a separator between them a path and a relative path are read as one path. -/
theorem compile_path_append {path : LocationPath} {word : String}
    (ha : compile bindings a = .ok ⟨[path]⟩) (hroot : path ≠ ⟨true, []⟩)
    (hb : compile bindings b = .ok ⟨[⟨false, others⟩]⟩)
    (hseparator : Separator word.toList between) :
    compile bindings (a ++ word ++ b) =
      .ok ⟨[⟨path.absolute, path.steps ++ between ++ others⟩]⟩ := by
  have hneutral := compile_neutral ha
  rw [compile_singleton_iff] at ha hb ⊢
  have hslash : Text.trim a.toList ≠ ['/'] := by
    intro htrim
    have hpath : compilePath bindings a.toList = .ok ⟨true, []⟩ :=
      compilePath_eq_ok_iff.2 (.inl ⟨htrim, rfl⟩)
    rw [ha.2] at hpath
    exact hroot (Except.ok.inj hpath)
  rw [String.toList_append, String.toList_append]
  refine ⟨?_, compilePath_append ha.2 hslash hb.2 hseparator⟩
  have hfront : outside.after (a.toList ++ word.toList) = outside :=
    hneutral.append hseparator.neutral
  have hnone : outside.split '|' (a.toList ++ word.toList) = none := by
    rw [split_append_of_none ha.1, split_of_not_mem hseparator.not_mem_bar]
    rfl
  rw [split_append_of_none hnone, hfront, hb.1]
  rfl

/-! ## What is selected -/

variable {d : Document} {forest : List Tree} {context : Node}

theorem lists_select_union (hd : d.Shows forest) (ha : compile bindings a = .ok first)
    (hb : compile bindings b = .ok second) (hcontext : d.HasNode context) :
    d.Lists {n | n ∈ first.select d context ∨ n ∈ second.select d context}
      (Expression.select ⟨first.paths ++ second.paths⟩ d context) := by
  have hfirst := Expression.lists_select hd (compile_counts ha) hcontext
  have hsecond := Expression.lists_select hd (compile_counts hb) hcontext
  have hunion := Expression.lists_select hd (compile_counts (compile_union ha hb)) hcontext
  refine hunion.congr fun n => ?_
  rw [Set.mem_ofPred_eq, hfirst.mem, hsecond.mem]
  simp [Expression.denotation, or_and_right, exists_or]

/-- Steps behind those of a path go on from every node that the path selects. -/
theorem lists_select_append (hd : d.Shows forest) {path : LocationPath} {word : String}
    (ha : compile bindings a = .ok ⟨[path]⟩) (hroot : path ≠ ⟨true, []⟩)
    (hb : compile bindings b = .ok ⟨[⟨false, others⟩]⟩)
    (hseparator : Separator word.toList between) (hcontext : d.HasNode context) :
    d.Lists {m | ∃ n ∈ Expression.select ⟨[path]⟩ d context, ∃ k, Reaches d between n k ∧
        m ∈ Expression.select ⟨[⟨false, others⟩]⟩ d k}
      (Expression.select ⟨[⟨path.absolute, path.steps ++ between ++ others⟩]⟩ d context) := by
  have hfirst := Expression.lists_select hd (compile_counts ha) hcontext
  have hsecond {k : Node} (hk : d.HasNode k) := Expression.lists_select hd (compile_counts hb) hk
  have hwhole := Expression.lists_select hd
    (compile_counts (compile_path_append ha hroot hb hseparator)) hcontext
  have hnode {n k : Node} (hn : n ∈ Expression.select ⟨[path]⟩ d context)
      (hk : Reaches d between n k) : d.HasNode k :=
    hasNode_of_reaches hd hseparator.counts (hfirst.valid n hn) hk
  refine hwhole.congr fun m => ?_
  rw [Expression.mem_denotation_singleton]
  constructor
  · intro hm
    obtain ⟨k, hk, hm⟩ := reaches_append.1 hm
    obtain ⟨n, hn, hk⟩ := reaches_append.1 hk
    have hn := (hfirst.mem n).2 (Expression.mem_denotation_singleton.2 hn)
    have hm := Expression.mem_denotation_singleton.2
      (show m ∈ LocationPath.denotation ⟨false, others⟩ d k from hm)
    exact ⟨n, hn, k, hk, ((hsecond (hnode hn hk)).mem m).2 hm⟩
  · rintro ⟨n, hn, k, hk, hm⟩
    have hm := Expression.mem_denotation_singleton.1 (((hsecond (hnode hn hk)).mem m).1 hm)
    have hn := Expression.mem_denotation_singleton.1 ((hfirst.mem n).1 hn)
    exact reaches_append.2 ⟨k, reaches_append.2 ⟨n, hn, hk⟩, hm⟩

/-- Expressions go together with a bar between them, and a path that is not the root by itself goes
together with a relative path behind a separator. -/
theorem compile_together (ha : compile bindings a = .ok first)
    (hb : compile bindings b = .ok second) :
    (∃ union swapped, compile bindings (a ++ "|" ++ b) = .ok union ∧
      compile bindings (b ++ "|" ++ a) = .ok swapped ∧
      ∀ d : Document, d.Produced → ∀ context, d.HasNode context →
        d.Enumerates {n | n ∈ first.select d context ∨ n ∈ second.select d context}
          (union.select d context) ∧
        union.select d context = swapped.select d context) ∧
    ∀ path relative, first.paths = [path] → path ≠ ⟨true, []⟩ → second.paths = [relative] →
      relative.absolute = false →
      ∃ next deep, compile bindings (a ++ "/" ++ b) = .ok next ∧
        compile bindings (a ++ "//" ++ b) = .ok deep ∧
        ∀ d : Document, d.Produced → ∀ context, d.HasNode context →
          d.Enumerates {m | ∃ n ∈ first.select d context, m ∈ second.select d n}
            (next.select d context) ∧
          d.Enumerates {m | ∃ n ∈ first.select d context, ∃ k,
              (k = n ∨ d.HasDescendant n k) ∧ m ∈ second.select d k}
            (deep.select d context) := by
  constructor
  · refine ⟨_, _, compile_union ha hb, compile_union hb ha, fun d hd context hcontext => ?_⟩
    obtain ⟨forest, -, hd⟩ := hd.shows
    have hunion := lists_select_union hd ha hb hcontext
    have hswapped := lists_select_union hd hb ha hcontext
    exact ⟨hunion.enumerates hd, hunion.unique (hswapped.congr fun n => or_comm)⟩
  · rintro path ⟨absolute, others⟩ hpath hroot hrelative rfl
    obtain rfl : first = ⟨[path]⟩ := congrArg Expression.mk hpath
    obtain rfl : second = ⟨[⟨false, others⟩]⟩ := congrArg Expression.mk hrelative
    have hsingle : Separator "/".toList [] := .single
    have hdouble : Separator "//".toList [anywhere] := .double
    refine ⟨_, _, compile_path_append ha hroot hb hsingle, compile_path_append ha hroot hb hdouble,
      fun d hd context hcontext => ?_⟩
    obtain ⟨forest, -, hd⟩ := hd.shows
    have hnext := lists_select_append hd ha hroot hb hsingle hcontext
    have hdeep := lists_select_append hd ha hroot hb hdouble hcontext
    refine ⟨(hnext.congr fun m => ?_).enumerates hd, (hdeep.congr fun m => ?_).enumerates hd⟩
    · simp [Reaches]
    · simp [reaches_anywhere]

/-- A bar and a slash in a literal are no separators, and blanks around a separator are skipped. -/
theorem together_of_quoted_marks : ∃ d first second union swapped next deep,
    Document.read .lenient "<o><line kind='a|b/c'><part/><part/></line></o>" = .ok d ∧
    compile [] "//line[@kind='a|b/c'] " = .ok first ∧ compile [] " part[last()]" = .ok second ∧
    compile [] "//line[@kind='a|b/c'] | part[last()]" = .ok union ∧
    compile [] " part[last()]|//line[@kind='a|b/c'] " = .ok swapped ∧
    compile [] "//line[@kind='a|b/c'] / part[last()]" = .ok next ∧
    compile [] "//line[@kind='a|b/c'] // part[last()]" = .ok deep ∧
    d.Enumerates {n | n ∈ first.select d Document.root ∨ n ∈ second.select d Document.root}
      (union.select d Document.root) ∧
    union.select d Document.root = swapped.select d Document.root ∧
    d.Enumerates {m | ∃ n ∈ first.select d Document.root, m ∈ second.select d n}
      (next.select d Document.root) ∧
    d.Enumerates {m | ∃ n ∈ first.select d Document.root, ∃ k,
        (k = n ∨ d.HasDescendant n k) ∧ m ∈ second.select d k}
      (deep.select d Document.root) := by
  obtain ⟨d, hread⟩ := exists_eq_ok
    (x := Document.read .lenient "<o><line kind='a|b/c'><part/><part/></line></o>")
    (by decide +kernel)
  have hfirst : compile [] "//line[@kind='a|b/c'] " = .ok ⟨[⟨true, [anywhere,
      ⟨.child, .name none "line", [.attributeEquals (.name none "kind") "a|b/c"]⟩]⟩]⟩ := by
    decide +kernel
  have hsecond : compile [] " part[last()]" =
      .ok ⟨[⟨false, [⟨.child, .name none "part", [.last]⟩]⟩]⟩ := by decide +kernel
  have hd : d.Produced := .read hread
  have hroot : d.HasNode Document.root := hd.shows.choose_spec.2.hasNode_root
  obtain ⟨⟨union, swapped, hunion, hswapped, hboth⟩, hpaths⟩ := compile_together hfirst hsecond
  obtain ⟨next, deep, hnext, hdeep, hgo⟩ := hpaths _ _ rfl (by decide) rfl rfl
  exact ⟨d, _, _, union, swapped, next, deep, hread, hfirst, hsecond, hunion, hswapped, hnext,
    hdeep, (hboth d hd _ hroot).1, (hboth d hd _ hroot).2, hgo d hd _ hroot⟩

end SoapKit.Xml.Path
