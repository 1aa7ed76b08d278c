import SoapKit.Proofs.Client.MemberNames

/-!
# Names of methods

**Theorem (`compile_methodNames`).** The methods of operations that block are called after names
that are handed out, and each of the others after the name of its twin with `_async` behind it. Two
methods have the same identifier exactly if two of the names make the same word, or if one makes the
word of another with `_async` behind it. Where the names are words already, only the second can
happen.

It does happen (`not_nodup_methods`): the names of twins are not handed out themselves.

The name of a method ends in a mark or in a number, or begins with a reading verb, and so none makes
a word that Rust forbids (`wordOf_method_not_mem`): identifiers of methods are words.
-/

namespace SoapKit.Client

open Naming
open Rust (Ident Function Item)
open Wsdl (QName Definitions)

/-! ## Words of names of methods -/

theorem suffix_wordOf {name ending : String}
    (hclean : ending.toList.map Ident.clean = ending.toList)
    (hdigit : Ident.wordOf ending = ending) :
    ending.toList <:+ (Ident.wordOf (name ++ ending)).toList := by
  by_cases hname : name = ""
  · rw [hname, String.empty_append, hdigit]
  · rw [Ident.wordOf_append hname, hclean, String.ofList_toList, String.toList_append]
    exact List.suffix_append ..

/-- A name of a method is marked, or begins with a reading verb. -/
theorem methodName_cases (soapAction operation : String) :
    (∃ name, Plan.methodName soapAction operation = name ++ "_mut") ∨
      ∃ verb ∈ Plan.readingVerbs, ∃ rest, Plan.methodName soapAction operation = verb ++ rest := by
  unfold Plan.methodName
  simp only
  generalize underscore _ = name
  split
  · next h =>
    refine .inr ⟨_, List.contains_iff_mem.1 h, String.ofList (name.toList.dropWhile (· ≠ '_')), ?_⟩
    apply String.toList_inj.1
    simp [String.toList_append, List.takeWhile_append_dropWhile]
  · exact .inl ⟨_, rfl⟩

theorem methodName_ne_empty (soapAction operation : String) :
    Plan.methodName soapAction operation ≠ "" := by
  intro h
  rcases methodName_cases soapAction operation with ⟨name, hname⟩ | ⟨verb, hverb, rest, hname⟩
  · rw [h] at hname
    simpa using congrArg String.toList hname
  · have hverbs : ∀ verb ∈ Plan.readingVerbs, verb ≠ "" := by decide
    rw [h] at hname
    have hempty := congrArg String.toList hname
    simp only [String.toList_append, String.toList_empty] at hempty
    exact hverbs verb hverb (by simpa using (List.append_eq_nil_iff.1 hempty.symm).1)

theorem wordOf_methodName_not_mem (soapAction operation : String) :
    Ident.wordOf (Plan.methodName soapAction operation) ∉ Ident.forbidden := by
  rcases methodName_cases soapAction operation with ⟨name, hname⟩ | ⟨verb, hverb, rest, hname⟩
  · rw [hname]
    have hending : ∀ word ∈ Ident.forbidden, ¬"_mut".toList <:+ word.toList := by decide
    exact fun hmem => hending _ hmem (suffix_wordOf (by decide) (by decide))
  · have hverbs : ∀ verb ∈ Plan.readingVerbs, verb ≠ "" ∧ Ident.wordOf verb = verb ∧
        ∀ word ∈ Ident.forbidden, ¬verb.toList <+: word.toList := by
      decide
    obtain ⟨hne, hword, hbegins⟩ := hverbs verb hverb
    rw [hname, Ident.wordOf_append hne, hword]
    refine fun hmem => hbegins _ hmem ?_
    rw [String.toList_append]
    exact List.prefix_append ..

/-- No name of a method makes a word that Rust forbids. -/
theorem wordOf_method_not_mem {soapAction operation method : String}
    (h : Variant (Plan.methodName soapAction operation) method) :
    method ≠ "" ∧ Ident.wordOf method ∉ Ident.forbidden := by
  have hne := methodName_ne_empty soapAction operation
  cases h with
  | plain => exact ⟨hne, wordOf_methodName_not_mem soapAction operation⟩
  | numbered number =>
    rw [numbered_eq_append]
    refine ⟨fun h => ?_, fun hmem => ?_⟩
    · simpa using congrArg String.toList h
    · rw [Ident.wordOf_append hne, map_clean_number, String.ofList_toList] at hmem
      have hplain :
          (Ident.forbidden.all fun word => word.toList.all fun c => !c.isDigit) = true := by
        decide
      obtain ⟨c, hc⟩ := List.exists_mem_of_ne_nil _ (Nat.toDigits_ne_nil (n := number) (b := 10))
      have hnot := List.all_eq_true.1 (List.all_eq_true.1 hplain _ hmem) c
        (by simp [String.toList_append, hc])
      rw [isDigit_of_mem_toDigits hc] at hnot
      cases hnot

/-! ## Twins -/

/-- What the method that does not block is called. -/
def twin (name : String) : String :=
  name ++ "_async"

theorem ne_twin (name : String) : name ≠ twin name := by
  intro h
  have hlength := congrArg String.length h
  rw [twin, String.length_append] at hlength
  have hmore : "_async".length = 6 := rfl
  omega

theorem twin_injective : Function.Injective twin := by
  intro name other h
  exact String.append_left_inj _ |>.1 h

theorem mem_withTwins {names : List String} {x : String} :
    x ∈ (names.flatMap fun name => [name, twin name]) ↔
      x ∈ names ∨ ∃ name ∈ names, x = twin name := by
  simp only [List.mem_flatMap, List.mem_cons, List.not_mem_nil, or_false]
  constructor
  · rintro ⟨name, hname, rfl | rfl⟩
    · exact .inl hname
    · exact .inr ⟨name, hname, rfl⟩
  · rintro (hx | ⟨name, hname, rfl⟩)
    · exact ⟨x, hx, .inl rfl⟩
    · exact ⟨name, hname, .inr rfl⟩

/-- Names with their twins are different if the names are and none is the twin of another. -/
theorem nodup_withTwins {names : List String} :
    (names.flatMap fun name => [name, twin name]).Nodup ↔
      names.Nodup ∧ ∀ name ∈ names, ∀ other ∈ names, other ≠ twin name := by
  induction names with
  | nil => simp
  | cons first rest ih =>
    have hself := ne_twin first
    have hinj : ∀ name, twin first = twin name → first = name := fun name h => twin_injective h
    rw [List.flatMap_cons, List.cons_append, List.singleton_append, List.nodup_cons,
      List.nodup_cons, List.nodup_cons, ih, List.mem_cons, mem_withTwins]
    grind

/-! ## Identifiers of methods -/

/-- The words of two names tell their identifiers apart. -/
theorem text_ofName_eq_iff {name other : String} (h : Ident.wordOf name ∉ Ident.forbidden)
    (hother : Ident.wordOf other ∉ Ident.forbidden) :
    (Ident.ofName name).text = (Ident.ofName other).text ↔
      Ident.wordOf name = Ident.wordOf other := by
  have hname : Ident.ofName name = ⟨Ident.wordOf name⟩ := by
    rw [Ident.ofName_eq, if_neg (fun hmem => h (List.contains_iff_mem.1 hmem))]
  have hname' : Ident.ofName other = ⟨Ident.wordOf other⟩ := by
    rw [Ident.ofName_eq, if_neg (fun hmem => hother (List.contains_iff_mem.1 hmem))]
  constructor
  · intro heq
    have hidents := Ident.ofName_eq_of_text heq
    rw [hname, hname'] at hidents
    exact congrArg Ident.name hidents
  · intro heq
    rw [hname, hname', heq]

/-- What tells the members of a list apart as well as something else does makes as many different.
-/
theorem nodup_map_iff {α β γ : Type} {f : α → β} {g : α → γ} {xs : List α}
    (h : ∀ x ∈ xs, ∀ y ∈ xs, f x = f y ↔ g x = g y) : (xs.map f).Nodup ↔ (xs.map g).Nodup := by
  rw [List.Nodup, List.Nodup, List.pairwise_map, List.pairwise_map]
  exact List.Pairwise.iff_of_mem fun hx hy => not_congr (h _ hx _ hy)

/-- The identifiers of names and their twins are told apart by the words of the names. -/
theorem nodup_texts {names : List String}
    (hnames : ∀ name ∈ names, name ≠ "" ∧ Ident.wordOf name ∉ Ident.forbidden) :
    ((names.flatMap fun name => [name, twin name]).map fun name => (Ident.ofName name).text).Nodup ↔
      (names.map Ident.wordOf).Nodup ∧
        ∀ name ∈ names, ∀ other ∈ names, Ident.wordOf other ≠ twin (Ident.wordOf name) := by
  have htwin : ∀ name ∈ names, Ident.wordOf (twin name) = twin (Ident.wordOf name) :=
    fun name hname => Ident.wordOf_append (hnames name hname).1 "_async"
  have hallowed : ∀ name ∈ names.flatMap (fun name => [name, twin name]),
      Ident.wordOf name ∉ Ident.forbidden := by
    intro name hname
    rcases mem_withTwins.1 hname with hname | ⟨other, -, rfl⟩
    · exact (hnames name hname).2
    · have hending : ∀ word ∈ Ident.forbidden, ¬"_async".toList <:+ word.toList := by decide
      exact fun hmem => hending _ hmem (suffix_wordOf (by decide) (by decide))
  have hwords : (names.flatMap fun name => [name, twin name]).map Ident.wordOf =
      (names.map Ident.wordOf).flatMap fun word => [word, twin word] := by
    rw [List.map_flatMap, List.flatMap_map]
    exact List.flatMap_congr fun name hname => by simp [htwin name hname]
  rw [nodup_map_iff fun name hname other hother =>
    text_ofName_eq_iff (hallowed name hname) (hallowed other hother), hwords, nodup_withTwins]
  simp

/-! ## Plans -/

/-- What the methods of a binding are called before numbers are put behind names. -/
def methodBases (binding : Wsdl.Binding) : List String :=
  binding.actions.values.map fun action => Plan.methodName action.soapAction action.name

section Plan

variable {defs : Definitions} {binding : Wsdl.Binding} {interface : Wsdl.Interface}

theorem planOperation_method {methods methods' : FreshNames} {action : Wsdl.Action}
    {planned : PlannedOperation}
    (h : Plan.planOperation defs binding interface methods action = .ok (planned, methods')) :
    (planned.method, methods') =
      methods.allocate (Plan.methodName action.soapAction action.name) := by
  obtain ⟨operation, -, hrest⟩ := bind_eq_ok.1 h
  obtain ⟨parts, -, hrest⟩ := bind_eq_ok.1 hrest
  obtain ⟨output, -, heq⟩ := bind_eq_ok.1 hrest
  cases heq
  rfl

theorem planOperations_methods {methods : FreshNames} {actions : List Wsdl.Action}
    {planned : List PlannedOperation}
    (h : Plan.planOperations defs binding interface methods actions = .ok planned) :
    planned.map (·.method) = (methods.allocateAll (actions.map fun action =>
      Plan.methodName action.soapAction action.name)).1 := by
  induction actions generalizing methods planned with
  | nil =>
    cases h
    rfl
  | cons action rest ih =>
    obtain ⟨⟨first, methods'⟩, hfirst, hrest⟩ := bind_eq_ok.1 h
    obtain ⟨others, hothers, heq⟩ := bind_eq_ok.1 hrest
    cases heq
    rw [List.map_cons, List.map_cons, FreshNames.allocateAll, ih hothers,
      ← planOperation_method hfirst]

/-- The methods of a plan are called after different names that were handed out for its actions. -/
theorem ofBinding_methods {name : String} {plan : Plan}
    (h : Plan.ofBinding defs binding name = .ok plan) :
    List.Forall₂ Variant (methodBases binding) (plan.operations.map (·.method)) ∧
      (plan.operations.map (·.method)).Nodup := by
  obtain ⟨interface, -, hrest⟩ := bind_eq_ok.1 h
  obtain ⟨isEncoded, -, hrest⟩ := bind_eq_ok.1 hrest
  obtain ⟨operations, hoperations, heq⟩ := bind_eq_ok.1 hrest
  have hplan : plan.operations = operations := by
    cases heq
    rfl
  have hhanded := handedOut_allocateAll List.nodup_nil (methodBases binding)
  have hmethods := planOperations_methods hoperations
  rw [hplan, hmethods]
  exact ⟨hhanded.variants, hhanded.nodup⟩

end Plan

/-- The two methods of an operation. -/
theorem writeOperation_methods {s : Setting} {bench bench' : Workbench}
    {operation : PlannedOperation} {methods : List Function}
    (h : writeOperation s operation bench = .ok (methods, bench')) :
    methods.map (·.name) =
      [operation.method, twin operation.method].map fun name => (Ident.ofName name).text := by
  obtain ⟨root, bench₁, -, hrest⟩ := writing_bind_eq_ok.1 h
  obtain ⟨heading, bench₂, -, hrest⟩ := writing_bind_eq_ok.1 hrest
  obtain ⟨⟨params, parts⟩, bench₃, -, heq⟩ := writing_bind_eq_ok.1 hrest
  cases heq
  rfl

/-! ## Clients -/

/-- The methods of operations are called after different names, and their twins after these. Two of
them have the same identifier only if two names make the same word or one makes the word of another
one's twin; names that are words can only do the latter. -/
theorem compile_methodNames {defs : Definitions} {service : Option String} {name : QName}
    {items : List Item} (h : compile defs service name = .ok items) :
    ∃ binding plan layouts methods, defs.bindings.get? name = some binding ∧
      Compiled defs service name items plan layouts ∧ HoldsMethods plan items methods ∧
      List.Forall₂ Variant (methodBases binding) (plan.operations.map (·.method)) ∧
      (plan.operations.map (·.method)).Nodup ∧
      methods.map (·.name) = (plan.operations.flatMap fun operation =>
        [operation.method, twin operation.method]).map (fun name => (Ident.ofName name).text) ∧
      ((methods.map (·.name)).Nodup ↔
        (plan.operations.map fun operation => Ident.wordOf operation.method).Nodup ∧
          ∀ operation ∈ plan.operations, ∀ other ∈ plan.operations,
            Ident.wordOf other.method ≠ twin (Ident.wordOf operation.method)) ∧
      ((∀ operation ∈ plan.operations, Ident.wordOf operation.method = operation.method) →
        ((methods.map (·.name)).Nodup ↔ ∀ operation ∈ plan.operations,
          ∀ other ∈ plan.operations, other.method ≠ twin operation.method)) := by
  obtain ⟨plan, layouts, methods, bench, hcompiled, hblock, hmethods⟩ := exists_methods h
  obtain ⟨binding, hbinding, hplan⟩ := hcompiled.planned
  obtain ⟨hvariants, hnodup⟩ := ofBinding_methods hplan
  have hpairs : List.Forall₂ (fun operation pair => pair.map (·.name) =
      [operation.method, twin operation.method].map fun name => (Ident.ofName name).text)
      plan.operations methods := by
    refine writing_mapM_eq_ok ?_ hmethods
    exact fun _ _ _ _ => writeOperation_methods
  have hnames : methods.flatten.map (·.name) = (plan.operations.flatMap fun operation =>
      [operation.method, twin operation.method]).map fun name => (Ident.ofName name).text := by
    rw [List.map_flatten, List.map_flatMap, List.flatMap_def, map_eq_of_forall₂ id hpairs]
  have hallowed : ∀ name ∈ plan.operations.map (·.method),
      name ≠ "" ∧ Ident.wordOf name ∉ Ident.forbidden := by
    intro name hname
    obtain ⟨base, hbase, hvariant⟩ := exists_mem_of_forall₂ hvariants hname
    obtain ⟨action, -, rfl⟩ := List.mem_map.1 hbase
    exact wordOf_method_not_mem hvariant
  have hwords : (methods.flatten.map (·.name)).Nodup ↔
      (plan.operations.map fun operation => Ident.wordOf operation.method).Nodup ∧
        ∀ operation ∈ plan.operations, ∀ other ∈ plan.operations,
          Ident.wordOf other.method ≠ twin (Ident.wordOf operation.method) := by
    have htexts := nodup_texts hallowed
    rw [List.flatMap_map, List.map_map] at htexts
    rw [hnames, htexts]
    simp [Function.comp_def]
  refine ⟨binding, plan, layouts, methods.flatten, hbinding, hcompiled, hblock, hvariants, hnodup,
    hnames, hwords, fun hplain => ?_⟩
  rw [hwords, List.map_congr_left hplain, and_iff_right hnodup]
  constructor
  · intro hapart operation hoperation other hother
    rw [← hplain operation hoperation, ← hplain other hother]
    exact hapart operation hoperation other hother
  · intro hapart operation hoperation other hother
    rw [hplain operation hoperation, hplain other hother]
    exact hapart operation hoperation other hother

/-! ## Operations that are named like twins -/

/-- A description whose operations have no parameters. -/
def silent (operations : List (String × String)) : Definitions :=
  { Definitions.empty with
    interfaces := ⟨[(linkedName "Port", ⟨linkedName "Port",
      ⟨operations.map fun (name, _) => (name, ⟨name, none, none, none, []⟩)⟩⟩)]⟩
    bindings := ⟨[(linkedName "Soap", ⟨linkedName "Soap", linkedName "Port", .soap11, .rpc, none,
      ⟨operations.map fun (name, soapAction) =>
        (name, ⟨name, soapAction, none, .empty, .empty⟩)⟩⟩)]⟩ }

/-- Operations with the same last segment in their actions get methods of their own. -/
theorem compile_methodNames_of_segments :
    ∃ (items : List Item) (plan : Plan) (methods : List Function),
      compile (silent [("Get", "urn:a/GetPart"), ("Put", "urn:b/GetPart"), ("Drop", "")]) none
        (linkedName "Soap") = .ok items ∧
      HoldsMethods plan items methods ∧ (plan.operations.map (·.method)).Nodup ∧
      methods.map (·.name) = (plan.operations.flatMap fun operation =>
        [operation.method, twin operation.method]).map fun name => (Ident.ofName name).text := by
  obtain ⟨items, hitems⟩ : ∃ items, compile
      (silent [("Get", "urn:a/GetPart"), ("Put", "urn:b/GetPart"), ("Drop", "")]) none
      (linkedName "Soap") = .ok items :=
    exists_eq_ok (by decide +kernel)
  obtain ⟨binding, plan, layouts, methods, -, -, hblock, -, hnodup, hnames, -⟩ :=
    compile_methodNames hitems
  exact ⟨items, plan, methods, hitems, hblock, hnodup, hnames⟩

/-- Two methods of a client can have the same identifier. -/
theorem not_nodup_methods : ∃ items,
    compile (silent [("GetPart", ""), ("GetPartAsync", "")]) none (linkedName "Soap") = .ok items ∧
    ∃ item ∈ items, item.members.map (·.name) =
      ["get_part", "get_part_async", "get_part_async", "get_part_async_async"] := by
  have hnames : (compile (silent [("GetPart", ""), ("GetPartAsync", "")]) none
      (linkedName "Soap")).toOption.map (List.any · fun item => item.members.map (·.name) ==
        ["get_part", "get_part_async", "get_part_async", "get_part_async_async"]) = some true := by
    decide +kernel
  obtain ⟨items, hitems, heq⟩ := Option.map_eq_some_iff.1 hnames
  exact ⟨items, toOption_eq_some.1 hitems, by simpa using heq⟩

end SoapKit.Client
