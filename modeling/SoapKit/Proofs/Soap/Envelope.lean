import SoapKit.Proofs.Xml.Draft.Fills
import SoapKit.Proofs.Xml.Draft.Reading
import SoapKit.Soap.Call

/-!
# Envelopes that are sent

With the default hooks a call sends the element of its action in an envelope that is settled before
the element is filled (`Dispatcher.around`). A reader of the request finds this envelope, an empty
header in it, and a body that holds the action and nothing else, however the action was filled
(`Dispatcher.prepare_envelops`).

Filling is free to give `env` another namespace inside of the action. Its names have to be names,
though, and its aliases have to be such that a reader takes them up, since neither is looked at
before they are written (`Dispatcher.prepare_forged`).
-/

namespace SoapKit.Soap

open Xml (Document Draft DraftElement IsAliases IsNcName Name Node Piece nearestAlias)
open Http (Request)

/-- The nodes of an envelope: there is an empty header in it, and a body that holds one node and
nothing else. -/
structure Envelops (d : Document) (uri : String) (envelope header body act : Node) : Prop where
  root : d.children Document.root = [envelope]
  parts : d.children envelope = [header, body]
  blank : d.children header = [] ∧ d.attributesOf header = []
  content : d.children body = [act]
  isEnvelope : d.IsCalled envelope ⟨some "env", "Envelope"⟩ (some uri)
  isHeader : d.IsCalled header ⟨some "env", "Header"⟩ (some uri)
  isBody : d.IsCalled body ⟨some "env", "Body"⟩ (some uri)

/-! ## The envelope around an action -/

namespace Dispatcher

/-- The namespace that a dispatcher gives a qualifier. Its last alias for the qualifier counts. -/
def aliased? (c : Dispatcher) (qualifier : String) : Option String :=
  ((("env", c.endpoint.version.envelopeNamespace) :: c.aliases).reverse.find?
    (·.1 == qualifier)).map (·.2)

/-- The body with some elements in it. -/
def bodyOf (content : List DraftElement) : DraftElement :=
  .mk ⟨some "env", "Body"⟩ .empty [] [] content none

/-- The envelope with some elements in its body. -/
def envelopeOf (content : List DraftElement) : DraftElement :=
  .mk ⟨some "env", "Envelope"⟩ .empty [] [] [.blank ⟨some "env", "Header"⟩, bodyOf content] none

/-- The draft of an envelope with some elements in its body. -/
def around (c : Dispatcher) (content : List DraftElement) : Draft where
  aliases := .ofList (("env", c.endpoint.version.envelopeNamespace) :: c.aliases)
  elements := [envelopeOf content]

variable {c : Dispatcher} {d : Document}

theorem forM_alias (aliases : List (String × String)) (draft : Draft) :
    (aliases.forM (fun (qualifier, uri) => Draft.alias qualifier uri) : StateM Draft Unit) draft =
      ((), { draft with
        aliases := aliases.foldl (fun m entry => m.insert entry.1 entry.2) draft.aliases }) := by
  induction aliases generalizing draft with
  | nil => rfl
  | cons entry rest ih => exact ih _

theorem emptyEnvelope_eq (c : Dispatcher) : c.emptyEnvelope = c.around [] := by
  unfold emptyEnvelope
  simp only [bind, StateT.bind, forM_alias]
  rfl

/-- The body is found, since neither the envelope nor the header has its name. -/
theorem find?_around (c : Dispatcher) (content : List DraftElement) :
    (c.around content).find? bodyName = some (bodyOf content) := by
  simp [around, envelopeOf, bodyOf, bodyName, DraftElement.blank, Draft.find?, Draft.findAll,
    DraftElement.findAllIn, DraftElement.findAll, DraftElement.isNamed, DraftElement.name,
    Name.text]

theorem atFirst_around (c : Dispatcher) (act : DraftElement) :
    (Draft.atFirst bodyName (DraftElement.attach act) (c.around [])).2 = c.around [act] := by
  simp [around, envelopeOf, bodyOf, bodyName, DraftElement.blank, Draft.atFirst,
    DraftElement.atFirstIn, DraftElement.atFirst, DraftElement.isNamed, DraftElement.name,
    Name.text]
  rfl

section Prepare

variable {σ : Type} (header : ActionHeader) (build : DraftElement → StateM σ DraftElement) (s : σ)

/-- Without hooks the envelope is the one around the filled element of the action. -/
theorem envelope_default (c : Dispatcher) (action : String) :
    (c.envelope .default action build s).1 =
      .ok (c.around [(build (.blank (DraftElement.childName (some "env") action)) s).1]) := by
  unfold envelope
  simp only [Hooks.default, pure_bind, emptyEnvelope_eq, find?_around]
  exact congrArg Except.ok (atFirst_around c _)

/-- Without hooks a request holds the text of the envelope around the filled element. -/
theorem body_of_prepare_default {c : Dispatcher} {action : String} {request : Request}
    (h : (c.prepare .default action header build s).1 = .ok request) : ∃ text,
      (c.around [(build (.blank (DraftElement.childName (some "env") action)) s).1]).toXml =
        .ok text ∧ request.body = some text := by
  have henvelope := envelope_default build s c action
  unfold prepare at h
  simp only [bind, StateT.bind] at h
  generalize c.envelope .default action build s = result at h henvelope
  obtain ⟨built, after⟩ := result
  obtain rfl : built = _ := henvelope
  dsimp only at h
  cases hxml : (c.around _).toXml with
  | error e =>
    rw [hxml] at h
    cases h
  | ok text =>
    rw [hxml] at h
    cases h
    exact ⟨text, rfl, rfl⟩

end Prepare

/-! ## Well-formed envelopes -/

theorem envelopeNamespace_ne (v : Version) : v.envelopeNamespace ≠ "" := by
  cases v <;> decide

/-- An element of the envelope is as well formed as what is inside of it. -/
theorem wellFormed_part {base : String} (hbase : IsNcName base) {children : List DraftElement}
    (hchildren : ∀ child ∈ children, child.WellFormed) :
    (DraftElement.mk ⟨some "env", base⟩ .empty [] [] children none).WellFormed := by
  have henv : IsNcName "env" := by decide +kernel
  have hname : (⟨some "env", base⟩ : Name).WellFormed :=
    ⟨fun qualifier hqualifier => Option.some.inj hqualifier ▸ henv, hbase⟩
  refine .mk hname ?_ ?_ ?_ ?_ ?_ hchildren <;> simp [IsAliases, OrderedMap.empty]

theorem wellFormed_around
    (haliases : ∀ entry ∈ c.aliases, entry.1 ≠ "env" ∧ entry.1 ≠ "xml" ∧ entry.2 ≠ "")
    {act : DraftElement} (hact : act.WellFormed) : (c.around [act]).WellFormed where
  aliases := by
    refine IsAliases.foldl_insert (by simp [IsAliases, OrderedMap.empty]) ?_
    rw [List.forall_mem_cons]
    refine ⟨⟨?_, envelopeNamespace_ne _⟩, fun entry hentry => (haliases entry hentry).2⟩
    show "env" ≠ "xml"
    decide
  elements := by
    have hheader := wellFormed_part (show IsNcName "Header" by decide +kernel)
      (List.forall_mem_nil DraftElement.WellFormed)
    have hbody := wellFormed_part (show IsNcName "Body" by decide +kernel)
      (List.forall_mem_singleton.2 hact)
    have henvelope := wellFormed_part (show IsNcName "Envelope" by decide +kernel)
      (List.forall_mem_cons.2 ⟨hheader, List.forall_mem_singleton.2 hbody⟩)
    exact List.forall_mem_singleton.2 henvelope

/-! ## What is read -/

/-- The namespace of a qualifier on an element in the body. -/
def aliasedAt? (c : Dispatcher) (act : DraftElement) (qualifier : String) : Option String :=
  (act.aliases.get? qualifier).or (c.aliased? qualifier)

theorem aliased?_env (haliases : ∀ entry ∈ c.aliases, entry.1 ≠ "env") :
    c.aliased? "env" = some c.endpoint.version.envelopeNamespace := by
  have hnone : c.aliases.reverse.find? (·.1 == "env") = none := by
    rw [List.find?_eq_none]
    intro entry hentry
    simpa using haliases entry (List.mem_reverse.1 hentry)
  rw [aliased?, List.reverse_cons, List.find?_append, hnone]
  rfl

/-- Neither the envelope nor its parts have aliases of their own. -/
theorem nearestAlias_around (content : List DraftElement) (qualifier : String) :
    nearestAlias [(c.around content).aliases] qualifier = c.aliased? qualifier := by
  have hdraft : (c.around content).aliases.get? qualifier = c.aliased? qualifier :=
    OrderedMap.get?_ofList _ _
  rw [Xml.nearestAlias_cons, hdraft]
  exact Option.or_none

/-- An element of the envelope is in the envelope's namespace, as long as no alias around it says
otherwise. -/
theorem isCalled_part (haliases : ∀ entry ∈ c.aliases, entry.1 ≠ "env")
    {aliases : List (OrderedMap String String)}
    (hdraft : nearestAlias aliases "env" = c.aliased? "env") {base : String}
    {children : List DraftElement} {n : Node}
    (h : (DraftElement.mk ⟨some "env", base⟩ .empty [] [] children none).Mirrors d aliases n) :
    d.IsCalled n ⟨some "env", base⟩ (some c.endpoint.version.envelopeNamespace) := by
  obtain ⟨uri, hnamed, hrel⟩ := h.exists_isCalled
  cases hrel with
  | @some _ uri halias =>
    have halias : nearestAlias aliases "env" = some uri := halias
    rw [hdraft, aliased?_env haliases] at halias
    rw [halias]
    exact hnamed

/-- A mirror of the envelope around an element has all the nodes of an envelope, and the last one
mirrors the element. -/
theorem envelops_of_mirrors (haliases : ∀ entry ∈ c.aliases, entry.1 ≠ "env")
    {act : DraftElement} {n : Node} (hroot : d.children Document.root = [n])
    (h : (envelopeOf [act]).Mirrors d [(c.around [act]).aliases] n) :
    ∃ header body node, Envelops d c.endpoint.version.envelopeNamespace n header body node ∧
      act.Mirrors d [.empty, .empty, (c.around [act]).aliases] node := by
  have hdraft := nearestAlias_around (c := c) [act] "env"
  have hinside : nearestAlias [.empty, (c.around [act]).aliases] "env" = c.aliased? "env" := hdraft
  obtain ⟨header, _, hheader, hmore, hparts⟩ :=
    List.forall₂_cons_left_iff.1 (h.forall₂_children rfl)
  obtain ⟨body, _, hbody, hnone, rfl⟩ := List.forall₂_cons_left_iff.1 hmore
  obtain rfl := List.forall₂_nil_left_iff.1 hnone
  obtain ⟨node, _, hact, hnone, hcontent⟩ :=
    List.forall₂_cons_left_iff.1 (hbody.forall₂_children rfl)
  obtain rfl := List.forall₂_nil_left_iff.1 hnone
  refine ⟨header, body, node, ?_, hact⟩
  exact {
    root := hroot
    parts := hparts
    blank := ⟨List.forall₂_nil_left_iff.1 (hheader.forall₂_children rfl),
      hheader.attributesOf_eq_nil rfl⟩
    content := hcontent
    isEnvelope := isCalled_part haliases hdraft h
    isHeader := isCalled_part haliases hinside hheader
    isBody := isCalled_part haliases hinside hbody }

/-- The request of a call is the envelope of its action. Its nodes stay as they are, whatever the
action is filled with, and the action is in the namespace of its nearest alias. -/
theorem prepare_envelops {σ : Type} {name : Name} {header : ActionHeader}
    {build : DraftElement → StateM σ DraftElement} {s : σ} {request : Request}
    (haliases : ∀ entry ∈ c.aliases, entry.1 ≠ "env" ∧ entry.1 ≠ "xml" ∧ entry.2 ≠ "")
    (hname : name.WellFormed)
    (hbuild : (DraftElement.blank name).Fills (build (.blank name) s).1)
    (h : (c.prepare .default name.text header build s).1 = .ok request) :
    ∃ text d, request.body = some text ∧ Document.read .lenient text = .ok d ∧
      ∃ envelope header body act uri,
        Envelops d c.endpoint.version.envelopeNamespace envelope header body act ∧
        d.IsCalled act name uri ∧
        Option.Rel
          (fun qualifier uri => c.aliasedAt? (build (.blank name) s).1 qualifier = some uri)
          name.qualifier uri := by
  obtain ⟨text, htext, hbody⟩ := body_of_prepare_default header build s h
  rw [DraftElement.childName_text hname] at htext
  have hact := hbuild.wellFormed (DraftElement.wellFormed_blank hname)
  have hsame : (build (.blank name) s).1.name = name := hbuild.name_eq
  generalize (build (.blank name) s).1 = act at htext hact hsame ⊢
  obtain ⟨d, root, t, hread, hroot, hd, hshown⟩ :=
    Draft.exists_shows_of_toXml (wellFormed_around haliases hact) htext
  cases hroot
  have hmirrors := hshown d [t] 0 1 hd hd.holdsAll.head hd.reachingDeclarations_root
  obtain ⟨header, body, node, henvelops, hmirror⟩ :=
    envelops_of_mirrors (fun entry hentry => (haliases entry hentry).1) hd.children_root hmirrors
  obtain ⟨uri, hnamed, hrel⟩ := hmirror.exists_isCalled
  rw [hsame] at hnamed hrel
  refine ⟨text, d, hbody, hread, _, header, body, node, uri, henvelops, hnamed, ?_⟩
  have hnearest (qualifier : String) :
      nearestAlias [act.aliases, .empty, .empty, (c.around [act]).aliases] qualifier =
        c.aliasedAt? act qualifier := by
    rw [Xml.nearestAlias_cons]
    exact congrArg _ (nearestAlias_around [act] qualifier)
  simpa only [hnearest] using hrel

/-- Inside of the action `env` stands for another namespace, the names of the envelope come again,
and a value looks like the end of the body. -/
theorem prepare_envelops_of_rebound :
    let c : Dispatcher := ⟨⟨"http://example.com", .soap12⟩, .lenient, [("m", "urn:m")], none⟩
    let name : Name := ⟨some "m", "Act"⟩
    let fill : StateM DraftElement Unit := do
      DraftElement.alias "env" "urn:other"
      DraftElement.setAttribute "env:key" (.text "\"/>")
      DraftElement.add "env:Body" (DraftElement.addValue "*:Act" (.text "</env:Body>"))
    let build : DraftElement → StateM Unit DraftElement := fun e => pure (fill e).2
    ∃ request, (c.prepare .default name.text .auto build ()).1 = .ok request ∧
      ∃ text d, request.body = some text ∧ Document.read .lenient text = .ok d ∧
        ∃ envelope header body act uri,
          Envelops d c.endpoint.version.envelopeNamespace envelope header body act ∧
          d.IsCalled act name uri ∧
          Option.Rel
            (fun qualifier uri => c.aliasedAt? (build (.blank name) ()).1 qualifier = some uri)
            name.qualifier uri := by
  intro c name fill build
  have haliases : ∀ entry ∈ c.aliases, entry.1 ≠ "env" ∧ entry.1 ≠ "xml" ∧ entry.2 ≠ "" := by
    decide +kernel
  have hname : name.WellFormed := by decide +kernel
  have hinner (child : DraftElement) :
      Xml.Keeps child.Fills (DraftElement.addValue "*:Act" (.text "</env:Body>")) :=
    DraftElement.keeps_fills_add (by decide +kernel) fun _ =>
      DraftElement.keeps_fills fun _ => .setValue _
  have hfill : Xml.Keeps (DraftElement.blank name).Fills fill := by
    refine (DraftElement.keeps_fills fun _ => .register ?_ ?_).bind fun _ =>
      (DraftElement.keeps_fills fun _ => .setAttribute _ ?_ ?_).bind fun _ =>
        DraftElement.keeps_fills_add ?_ hinner
    all_goals decide +kernel
  have hsome : (c.prepare .default name.text .auto build ()).1.toOption.isSome = true := by
    decide +kernel
  obtain ⟨request, hrequest⟩ := Option.isSome_iff_exists.1 hsome
  rw [toOption_eq_some] at hrequest
  exact ⟨request, hrequest, prepare_envelops haliases hname (hfill _ .refl) hrequest⟩

/-! ## Names and aliases that nothing looks at -/

/-- The text of the request of a call with the default hooks, whose action is filled by an action on
its element alone. -/
def textOf (c : Dispatcher) (action : String) (fill : StateM DraftElement Unit) :
    Except CallError (Option String) :=
  (c.prepare (m := Id) .default action .auto fun e => (fill e).2).map (·.body)

/-- The pieces of an envelope with something in its body. -/
def piecesAround (content : List Piece) : List Piece :=
  [.opening "env:Envelope" [("xmlns:env", "http://www.w3.org/2003/05/soap-envelope")],
    .empty "env:Header" [], .opening "env:Body" []] ++ content ++
  [.closing "env:Body", .closing "env:Envelope"]

theorem exists_sent {c : Dispatcher} {action : String} {fill : StateM DraftElement Unit}
    {pieces : List Piece} {p : Document → Prop} [DecidablePred p]
    (hsent : c.textOf action fill = .ok (some (Piece.render (.declaration :: pieces))))
    (hpieces : Piece.Block pieces)
    (h : (pieces.foldlM Xml.Lenient.Reading.take ⟨Xml.Assembly.start, []⟩ >>= fun r =>
      r.assembly.finish).toOption.map (fun d => decide (p d)) = some true) :
    ∃ text d, c.textOf action fill = .ok (some text) ∧ Document.read .lenient text = .ok d ∧
      p d := by
  obtain ⟨d, hd, hp⟩ := Option.map_eq_some_iff.1 h
  refine ⟨_, d, hsent, ?_, of_decide_eq_true hp⟩
  rw [Document.read_render_eq hpieces]
  exact toOption_eq_some.1 hd

/-- A dispatcher without aliases. -/
def plain : Dispatcher := ⟨⟨"http://example.com", .soap12⟩, .lenient, [], none⟩

/-- Adds a child element whose name holds markup. -/
def forge : StateM DraftElement Unit :=
  DraftElement.add "c/>\n    </Act>\n    <Act>\n      <d" (pure ())

theorem textOf_forge :
    plain.textOf "Act" forge = .ok (some (Piece.render (.declaration :: piecesAround
      [.opening "Act" [], .empty "c" [], .closing "Act",
        .opening "Act" [], .empty "d" [], .closing "Act"]))) := by
  rfl

theorem textOf_rebind :
    plain.textOf "xml:Act" (DraftElement.alias "xml" "urn:x") =
      .ok (some (Piece.render (.declaration ::
        piecesAround [.empty "xml:Act" [("xmlns:xml", "urn:x")]]))) := by
  rfl

theorem textOf_erase :
    plain.textOf "m:Act" (DraftElement.alias "m" "") =
      .ok (some (Piece.render (.declaration ::
        piecesAround [.empty "m:Act" [("xmlns:m", "")]]))) := by
  rfl

/-- A name that holds markup closes the action and opens another one. A reader takes no notice of
an alias for `xml`, and it refuses a qualifier that is given an empty namespace. -/
theorem prepare_forged :
    (∃ text d, plain.textOf "Act" forge = .ok (some text) ∧
      Document.read .lenient text = .ok d ∧ d.nameOf (Node.ofPlace 3) = "Body" ∧
      (d.children (Node.ofPlace 3)).map d.nameOf = ["Act", "Act"]) ∧
    (∃ text d, plain.textOf "xml:Act" (DraftElement.alias "xml" "urn:x") = .ok (some text) ∧
      Document.read .lenient text = .ok d ∧ d.nameOf (Node.ofPlace 4) = "Act" ∧
      d.uriOf (Node.ofPlace 4) = some Xml.xmlNamespace) ∧
    ∃ text, plain.textOf "m:Act" (DraftElement.alias "m" "") = .ok (some text) ∧
      Document.read .lenient text = .error (.undeclared "m") := by
  refine ⟨exists_sent textOf_forge (by decide +kernel) (by decide +kernel),
    exists_sent textOf_rebind (by decide +kernel) (by decide +kernel), _, textOf_erase, ?_⟩
  have herase : Piece.Block (piecesAround [.empty "m:Act" [("xmlns:m", "")]]) := by decide +kernel
  rw [Document.read_render_eq herase]
  decide +kernel

end Dispatcher

end SoapKit.Soap
