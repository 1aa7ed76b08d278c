import SoapKit.Proofs.Soap.Handling

/-!
# The order of a call

Whatever the hooks and the transport do, a call goes through its stages in one order
(`Dispatcher.invoke_followsOrder`). Without an envelope nothing is sent. With one the request is
shown and sent once, and then the response is handled (`Dispatcher.Handles`).

A call takes one of three courses (`Made`): there is no envelope, there is no response, or the
response is handled. What is said about the order is read off from these.
-/

namespace SoapKit.Soap

open Xml (Draft DraftElement BuildError)
open Http (Request Response ResponseFault)

namespace Dispatcher

variable {σ : Type}

/-- The text of the envelope of a call that is made in a state, or why there is none. -/
def written (c : Dispatcher) (hooks : Hooks (StateM σ)) (action : String)
    (build : DraftElement → StateM σ DraftElement) (s : σ) : Except BuildError String :=
  (c.envelope hooks action build s).1 >>= Draft.toXml

/-- The order of a call. `written` is the text of its envelope. -/
structure FollowsOrder (c : Dispatcher) (action : String) (header : ActionHeader)
    (written : Except BuildError String) (events : List Event)
    (result : Except CallError Reply) : Prop where
  /-- Every stage comes at most once, and after those before it. -/
  ordered : events.Pairwise fun a b => a.stage < b.stage
  created : ∃ filled, .created c.emptyEnvelope filled ∈ events
  unwritten : ∀ e, written = .error e →
    result = .error (.build e) ∧ ∀ event ∈ events, event.stage = 0
  sent : ∀ xml, written = .ok xml → .request (c.request header action xml) ∈ events ∧
    ∃ answer, .sent (c.request header action xml) answer ∈ events
  unanswered : ∀ request e, .sent request (.error e) ∈ events →
    result = .error (.transport e) ∧ ∀ event ∈ events, event.stage ≤ 2
  answered : ∀ request response, .sent request (.ok response) ∈ events →
    c.Handles response events result
  /-- No error of a query but that of a hook. -/
  query : ∀ e, result = .error (.query e) → ∃ event ∈ events, event.refusal = some (.query e)

/-- No other response comes in than the one that is handled. -/
theorem Handled.response_eq {c : Dispatcher} {response other : Response} {events : List Event}
    {result : Except CallError Reply} (h : Handled c response events result)
    {blank filled : Draft} {first second third : Request}
    (hsent : .sent third (.ok other) ∈
      .created blank filled :: .request first :: .sent second (.ok response) :: events) :
    other = response := by
  simp only [List.mem_cons, reduceCtorEq, Event.sent.injEq, Except.ok.injEq, false_or] at hsent
  rcases hsent with ⟨-, heq⟩ | hsent
  · exact heq
  · exact absurd (h.ordered.2 _ hsent) (Nat.lt_irrefl 2)

/-! ## Courses of a call -/

/-- What can happen in a call. -/
inductive Made (c : Dispatcher) (hooks : Hooks (StateM σ)) (action : String)
    (header : ActionHeader) (written : Except BuildError String) :
    List Event → Except CallError Reply → Prop where
  | unwritten {filled : Draft} {e : BuildError} : written = .error e →
      Made c hooks action header written [.created c.emptyEnvelope filled] (.error (.build e))
  | unanswered {filled : Draft} {xml : String} {e : ResponseFault} : written = .ok xml →
      Made c hooks action header written
        [.created c.emptyEnvelope filled, .request (c.request header action xml),
          .sent (c.request header action xml) (.error e)] (.error (.transport e))
  | answered {filled : Draft} {xml : String} {response : Response} {events : List Event} (s : σ) :
      written = .ok xml → Handled c response events (c.handle hooks response s).1 →
      Made c hooks action header written
        (.created c.emptyEnvelope filled :: .request (c.request header action xml) ::
          .sent (c.request header action xml) (.ok response) :: events)
        (c.handle hooks response s).1

section Invoke

variable (c : Dispatcher) (transport : Transport (StateM σ)) (hooks : Hooks (StateM σ))
  (action : String) (header : ActionHeader) (build : DraftElement → StateM σ DraftElement)

theorem notes_envelope :
    Notes (c.envelope hooks.noted action fun e => beside (build e)) (c.envelope hooks action build)
      fun _ events _ => ∃ filled, events = [.created c.emptyEnvelope filled] := by
  refine ((notes_note (hooks.onCreate c.emptyEnvelope) (.created c.emptyEnvelope)).bind
    (Q := fun _ _ events _ => events = []) ?_).imp ?_
  · intro draft
    cases draft.find? bodyName with
    | none => exact (notes_pure _).imp fun _ _ _ h => h.1
    | some body =>
      have hbuild := notes_beside
        (build (.blank (DraftElement.childName body.name.qualifier action)))
      refine (hbuild.bind fun filled =>
        notes_pure (.ok (Draft.atFirst bodyName (DraftElement.attach filled) draft).2 :
          Except BuildError Draft)).imp ?_
      rintro s events result ⟨_, _, rfl, rfl, rfl, -⟩
      rfl
  · rintro s events result ⟨_, _, rfl, ⟨rfl, -⟩, rfl⟩
    exact ⟨_, rfl⟩

theorem notes_prepare :
    Notes (c.prepare hooks.noted action header fun e => beside (build e))
      (c.prepare hooks action header build) fun s events result =>
        ∃ filled, (∃ e, c.written hooks action build s = .error e ∧
            events = [.created c.emptyEnvelope filled] ∧ result = .error (.build e)) ∨
          ∃ xml, c.written hooks action build s = .ok xml ∧
            events = [.created c.emptyEnvelope filled, .request (c.request header action xml)] ∧
            result = .ok (c.request header action xml) := by
  refine ((notes_envelope c hooks action build).bind (Q := fun built _ events result =>
    (∃ e, built >>= Draft.toXml = .error e ∧ events = [] ∧ result = .error (.build e)) ∨
      ∃ xml, built >>= Draft.toXml = .ok xml ∧ events = [.request (c.request header action xml)] ∧
        result = .ok (c.request header action xml)) ?_).imp ?_
  · intro built
    cases built with
    | error e =>
      refine (notes_pure _).imp ?_
      rintro s events result ⟨rfl, rfl⟩
      exact .inl ⟨e, rfl, rfl, rfl⟩
    | ok draft =>
      have hbuilt : (Except.ok draft >>= Draft.toXml) = draft.toXml := rfl
      simp only [hbuilt]
      cases draft.toXml with
      | error e =>
        refine (notes_pure _).imp ?_
        rintro s events result ⟨rfl, rfl⟩
        exact .inl ⟨e, rfl, rfl, rfl⟩
      | ok xml =>
        refine ((notes_note (hooks.onRequest (c.request header action xml)) fun _ =>
          .request (c.request header action xml)).bind fun _ =>
            notes_pure (.ok (c.request header action xml) : Except CallError Request)).imp ?_
        rintro s events result ⟨_, _, rfl, ⟨rfl, -⟩, rfl, rfl⟩
        exact .inr ⟨xml, rfl, rfl, rfl⟩
  · rintro s events result ⟨_, after, rfl, ⟨filled, rfl⟩, h⟩
    refine ⟨filled, ?_⟩
    rcases h with ⟨e, hwritten, rfl, hresult⟩ | ⟨xml, hwritten, rfl, hresult⟩
    · exact .inl ⟨e, hwritten, rfl, hresult⟩
    · exact .inr ⟨xml, hwritten, rfl, hresult⟩

theorem invoke_eq {m : Type → Type} [Monad m] (transport : Transport m) (hooks : Hooks m)
    (build : DraftElement → m DraftElement) :
    c.invoke transport hooks action header build =
      andThen (c.prepare hooks action header build) fun request =>
        transport request >>= fun answer => match answer with
          | .error e => pure (.error (.transport e))
          | .ok response => c.handle hooks response := by
  unfold invoke
  refine congrArg (_ >>= ·) (funext fun r => ?_)
  cases r with
  | error e => rfl
  | ok request => exact congrArg (_ >>= ·) (funext fun answer => by cases answer <;> rfl)

/-- What is noted in a call is one of its courses. -/
theorem notes_invoke :
    Notes (c.invoke (Transport.noted transport) hooks.noted action header fun e => beside (build e))
      (c.invoke transport hooks action header build) fun s =>
        Made c hooks action header (c.written hooks action build s) := by
  rw [invoke_eq, invoke_eq]
  refine ((notes_prepare c hooks action header build).andThen fun request =>
    (notes_note (transport request) (.sent request)).bind (Q := fun answer s events result =>
      (∃ e, answer = .error e ∧ events = [] ∧ result = .error (.transport e)) ∨
        ∃ response, answer = .ok response ∧ result = (c.handle hooks response s).1 ∧
          Handled c response events result) ?_).imp ?_
  · intro answer
    cases answer with
    | error e =>
      refine (notes_pure _).imp ?_
      rintro s events result ⟨rfl, rfl⟩
      exact .inl ⟨e, rfl, rfl, rfl⟩
    | ok response =>
      refine (notes_handle c hooks response).result_eq.imp ?_
      rintro s events result ⟨hhandled, rfl⟩
      exact .inr ⟨response, rfl, rfl, hhandled⟩
  · rintro s events result (⟨e, ⟨filled, h⟩, rfl⟩ |
      ⟨request, _, _, s', rfl, ⟨filled, h⟩, _, after, rfl, ⟨rfl, -⟩, hanswer⟩)
    · rcases h with ⟨e', hwritten, rfl, h⟩ | ⟨_, -, -, h⟩
      · cases h
        exact .unwritten hwritten
      · cases h
    · rcases h with ⟨_, -, -, h⟩ | ⟨xml, hwritten, rfl, h⟩
      · cases h
      · cases h
        rcases hanswer with ⟨e, hsent, rfl, rfl⟩ | ⟨response, hsent, rfl, hhandled⟩
        · rw [hsent]
          exact .unanswered hwritten
        · rw [hsent]
          exact .answered _ hwritten hhandled

end Invoke

/-! ## The order -/

section Order

variable {c : Dispatcher} {hooks : Hooks (StateM σ)} {action : String} {header : ActionHeader}
  {written : Except BuildError String} {events : List Event} {result : Except CallError Reply}

theorem Made.followsOrder (h : Made c hooks action header written events result) :
    c.FollowsOrder action header written events result := by
  cases h with
  | unwritten hwritten =>
    exact {
      ordered := List.pairwise_singleton _ _
      created := by simp
      unwritten := by simp [hwritten, Event.stage]
      sent := by simp [hwritten]
      unanswered := by simp
      answered := by simp
      query := by simp }
  | unanswered hwritten =>
    exact {
      ordered := by simp [Event.stage]
      created := by simp
      unwritten := by simp [hwritten]
      sent := by simp [hwritten]
      unanswered := by simp [Event.stage]
      answered := by simp
      query := by simp }
  | @answered filled xml response events s hwritten hhandled =>
    obtain ⟨hordered, hstages⟩ := hhandled.ordered
    have hhandles := hhandled.handles
    exact {
      ordered := by
        simp only [List.pairwise_cons, List.mem_cons, forall_eq_or_imp]
        refine ⟨⟨Nat.zero_lt_one, Nat.zero_lt_two, ?_⟩, ⟨Nat.one_lt_two, ?_⟩, hstages, hordered⟩
        · exact fun event hevent => Nat.zero_lt_of_lt (hstages event hevent)
        · exact fun event hevent => Nat.lt_of_succ_lt (hstages event hevent)
      created := by simp
      unwritten := by simp [hwritten]
      sent := by simp [hwritten]
      unanswered := by
        intro request e hsent
        simp only [List.mem_cons, reduceCtorEq, Event.sent.injEq, and_false, false_or] at hsent
        exact absurd (hstages _ hsent) (Nat.lt_irrefl 2)
      answered := by
        intro request other hsent
        rw [hhandled.response_eq hsent]
        exact hhandles.behind [_, _, _] (by simp [Event.stage])
      query := by
        intro e hresult
        obtain ⟨event, hevent, hrefusal⟩ := hhandles.exists_refusal hresult
        exact ⟨event, by simp [hevent], hrefusal⟩ }

end Order

section Whole

variable (c : Dispatcher) (transport : Transport (StateM σ)) (hooks : Hooks (StateM σ))
  (action : String) (header : ActionHeader) (build : DraftElement → StateM σ DraftElement) (s : σ)

theorem made_invoke :
    Made c hooks action header (c.written hooks action build s)
      (c.events transport hooks action header build s)
      (c.invoke transport hooks action header build s).1 := by
  obtain ⟨events, hrun, hmade⟩ := notes_invoke c transport hooks action header build s []
  rw [Dispatcher.events, hrun]
  exact hmade

/-- A call follows its order, whatever its hooks and its transport do. With the default hooks, a
response has its default outcome. -/
theorem invoke_followsOrder :
    c.FollowsOrder action header (c.written hooks action build s)
      (c.events transport hooks action header build s)
      (c.invoke transport hooks action header build s).1 ∧
    ∀ request response,
      .sent request (.ok response) ∈ c.events transport .default action header build s →
        (c.invoke transport .default action header build s).1 = c.defaultOutcome response := by
  refine ⟨(made_invoke c transport hooks action header build s).followsOrder, ?_⟩
  intro request response hsent
  have hmade := made_invoke c transport .default action header build s
  generalize (c.invoke transport .default action header build s).1 = result at hmade ⊢
  generalize c.events transport .default action header build s = events at hmade hsent
  cases hmade with
  | unwritten hwritten => simp at hsent
  | unanswered hwritten => simp at hsent
  | answered s' hwritten hhandled =>
    rw [handle_default, hhandled.response_eq hsent]

end Whole

/-- An error status goes before the absence of a document. -/
theorem invoke_of_errorStatus :
    let c : Dispatcher := ⟨⟨"u", .soap11⟩, .lenient, [], none⟩
    let response : Response := ⟨500, .empty, [], none⟩
    let transport : Transport (StateM Unit) := fun _ => pure (.ok response)
    ∃ request,
      .sent request (.ok response) ∈ c.events transport .default "Act" .auto pure () ∧
      (c.invoke transport .default "Act" .auto pure ()).1 = .error (.http response) := by
  intro c response transport
  have hsent : ∃ request,
      .sent request (.ok response) ∈ c.events transport .default "Act" .auto pure () :=
    ⟨_, .tail _ (.tail _ (.head _))⟩
  obtain ⟨request, hsent⟩ := hsent
  refine ⟨request, hsent, ?_⟩
  exact (invoke_followsOrder c transport .default "Act" .auto pure ()).2 request response hsent

end Dispatcher

end SoapKit.Soap
