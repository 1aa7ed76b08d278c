import SoapKit.Proofs.Soap.Fault
import SoapKit.Proofs.Soap.Trace

/-!
# What happens with a response

A response is looked at for a fault, for its status, and for its document. Where a hook about a
failure refuses to go on, its error is the result and nothing comes after it (`Handles`).

There are only a few courses that a call can take with a response (`Handled`), and handling it leads
along one of them (`notes_handle`), since handling is a sequence that ends at the first refusal
(`handle_eq`). Every event but the last of a course let the call go on (`Handled.exists_last`).
-/

namespace SoapKit.Soap

open Xml (Document ParseError)
open Http (Response)

namespace Dispatcher

variable {σ : Type}

/-- The document in the primary body of a response. -/
def parsed (c : Dispatcher) (response : Response) : Except ParseError Document :=
  Document.readBytes c.dialect ⟨response.primaryBody.toArray⟩

/-- A response holds a fault: its body is a document with a fault for the endpoint's version. -/
def HoldsFault (c : Dispatcher) (response : Response) (f : Fault) : Prop :=
  ∃ d, c.parsed response = .ok d ∧ Fault.detect d c.endpoint.version = .ok (some f)

/-- The fault that a response holds. -/
def fault? (c : Dispatcher) (response : Response) : Option Fault :=
  match c.parsed response with
  | .error _ => none
  | .ok d =>
    match Fault.detect d c.endpoint.version with
    | .error _ => none
    | .ok found => found

theorem fault?_eq_some_iff {c : Dispatcher} {response : Response} {f : Fault} :
    c.fault? response = some f ↔ c.HoldsFault response f := by
  unfold fault? HoldsFault
  cases c.parsed response with
  | error e => simp
  | ok d => cases hdetect : Fault.detect d c.endpoint.version <;> simp [hdetect]

/-- What happens with a response. -/
structure Handles (c : Dispatcher) (response : Response) (events : List Event)
    (result : Except CallError Reply) : Prop where
  fault : ∀ f, (∃ answer, .fault f answer ∈ events) ↔ c.HoldsFault response f
  status : ∀ other, (∃ answer, .status other answer ∈ events) ↔
    other = response ∧ 400 ≤ response.status ∧ ∀ f e, .fault f (.error e) ∉ events
  document : ∀ d, (∃ kept, .document d kept ∈ events) ↔
    c.parsed response = .ok d ∧ (∀ f e, .fault f (.error e) ∉ events) ∧
      ∀ other e, .status other (.error e) ∉ events
  missing : ∀ other e, (∃ answer, .missing other e answer ∈ events) ↔
    other = response ∧ c.parsed response = .error e ∧ (∀ f e, .fault f (.error e) ∉ events) ∧
      ∀ other e, .status other (.error e) ∉ events
  refused : ∀ event ∈ events, ∀ e, event.refusal = some e → result = .error e
  accepted : (∀ event ∈ events, event.refusal = none) → ∃ reply, result = .ok reply ∧
    reply.http = response ∧ (reply.document.isSome ↔ ∃ d, c.parsed response = .ok d) ∧
      ∀ d kept, .document d kept ∈ events → reply.document = some kept

/-- The outcome of a call with a response when every failure fails the call. -/
def defaultOutcome (c : Dispatcher) (response : Response) : Except CallError Reply :=
  match c.fault? response with
  | some f => .error (.fault f)
  | none =>
    if 400 ≤ response.status then .error (.http response)
    else match c.parsed response with
      | .error e => .error (.parse e)
      | .ok d => .ok ⟨some d, response⟩

/-! ## Courses with a response -/

/-- The events of a fault that the hook lets pass, or of no fault. -/
def faultAllowed (c : Dispatcher) (response : Response) : List Event :=
  (c.fault? response).toList.map fun f => .fault f (.ok ())

/-- The events of an error status that the hook lets pass, or of any other status. -/
def statusAllowed (response : Response) : List Event :=
  if 400 ≤ response.status then [.status response (.ok ())] else []

/-- The events before the last one when no hook refuses before it. -/
def allowed (c : Dispatcher) (response : Response) : List Event :=
  c.faultAllowed response ++ statusAllowed response

/-- What can happen with a response. -/
inductive Handled (c : Dispatcher) (response : Response) :
    List Event → Except CallError Reply → Prop where
  | fault {f : Fault} {e : CallError} : c.fault? response = some f →
      Handled c response [.fault f (.error e)] (.error e)
  | status {e : CallError} : 400 ≤ response.status →
      Handled c response (c.faultAllowed response ++ [.status response (.error e)]) (.error e)
  | missing {e : ParseError} {answer : Except CallError Unit} : c.parsed response = .error e →
      Handled c response (c.allowed response ++ [.missing response e answer])
        (answer.map fun _ => ⟨none, response⟩)
  | document {d kept : Document} : c.parsed response = .ok d →
      Handled c response (c.allowed response ++ [.document d kept]) (.ok ⟨some kept, response⟩)

variable (c : Dispatcher) (hooks : Hooks (StateM σ)) (response : Response)

theorem notes_checkFault : Notes (c.checkFault hooks.noted (c.parsed response))
    (c.checkFault hooks (c.parsed response)) fun _ events answer =>
      (answer = .ok () ∧ events = c.faultAllowed response) ∨
        ∃ f e, c.fault? response = some f ∧ answer = .error e ∧ events = [.fault f (.error e)] := by
  cases hparsed : c.parsed response with
  | error e =>
    refine (notes_pure _).imp ?_
    rintro s events answer ⟨rfl, rfl⟩
    simp [faultAllowed, fault?, hparsed]
  | ok d =>
    obtain ⟨found, hfound⟩ := Fault.exists_detect d c.endpoint.version
    have hfault : c.fault? response = found := by
      simp [fault?, hparsed, hfound]
    cases found with
    | none =>
      simp only [checkFault, hfound]
      refine (notes_pure _).imp ?_
      rintro s events answer ⟨rfl, rfl⟩
      simp [faultAllowed, hfault]
    | some f =>
      simp only [checkFault, hfound]
      refine (notes_note (hooks.onFault f) (.fault f)).imp ?_
      rintro s events answer ⟨rfl, -⟩
      cases answer with
      | error e => exact .inr ⟨f, e, hfault, rfl, rfl⟩
      | ok u => exact .inl ⟨rfl, by simp [faultAllowed, hfault]⟩

theorem notes_checkStatus : Notes (checkStatus hooks.noted response) (checkStatus hooks response)
    fun _ events answer => (answer = .ok () ∧ events = statusAllowed response) ∨
      ∃ e, 400 ≤ response.status ∧ answer = .error e ∧ events = [.status response (.error e)] := by
  unfold checkStatus statusAllowed
  by_cases hstatus : 400 ≤ response.status
  · rw [if_pos hstatus, if_pos hstatus, if_pos hstatus]
    refine (notes_note (hooks.onHttpError response) (.status response)).imp ?_
    rintro s events answer ⟨rfl, -⟩
    cases answer with
    | error e => exact .inr ⟨e, hstatus, rfl, rfl⟩
    | ok u => exact .inl ⟨rfl, rfl⟩
  · rw [if_neg hstatus, if_neg hstatus, if_neg hstatus]
    refine (notes_pure _).imp ?_
    rintro s events answer ⟨rfl, rfl⟩
    exact .inl ⟨rfl, rfl⟩

theorem notes_finish : Notes (finish hooks.noted response (c.parsed response))
    (finish hooks response (c.parsed response)) fun _ events result =>
      (∃ d kept, c.parsed response = .ok d ∧ events = [.document d kept] ∧
        result = .ok ⟨some kept, response⟩) ∨
      ∃ e answer, c.parsed response = .error e ∧ events = [.missing response e answer] ∧
        result = answer.map fun _ => ⟨none, response⟩ := by
  cases c.parsed response with
  | ok d =>
    refine ((notes_note (hooks.onDocument d) (.document d)).bind fun kept =>
      notes_pure (.ok ⟨some kept, response⟩ : Except CallError Reply)).imp ?_
    rintro s events result ⟨before, after, rfl, ⟨rfl, -⟩, rfl, rfl⟩
    exact .inl ⟨d, _, rfl, rfl, rfl⟩
  | error e =>
    refine ((notes_note (hooks.onMissingDocument response e) (.missing response e)).bind
      (Q := fun answer _ events result =>
        events = [] ∧ result = answer.map fun _ => (⟨none, response⟩ : Reply)) ?_).imp ?_
    · intro answer
      cases answer <;> exact notes_pure _
    · rintro s events result ⟨before, after, rfl, ⟨rfl, -⟩, rfl, rfl⟩
      exact .inr ⟨e, _, rfl, rfl, rfl⟩

/-- Handling a response is a sequence that ends at the first refusal. -/
theorem handle_eq {m : Type → Type} [Monad m] (hooks : Hooks m) :
    c.handle hooks response = andThen (c.checkFault hooks (c.parsed response)) fun _ =>
      andThen (checkStatus hooks response) fun _ => finish hooks response (c.parsed response) := by
  unfold handle
  refine congrArg (_ >>= ·) (funext fun r => ?_)
  cases r with
  | error e => rfl
  | ok u => exact congrArg (_ >>= ·) (funext fun r => by cases r <;> rfl)

/-- What is noted while a response is handled is one of the courses. -/
theorem notes_handle :
    Notes (c.handle hooks.noted response) (c.handle hooks response)
      fun _ => Handled c response := by
  rw [handle_eq, handle_eq]
  refine ((notes_checkFault c hooks response).andThen fun _ =>
    (notes_checkStatus hooks response).andThen fun _ => notes_finish c hooks response).imp ?_
  rintro s events result (⟨e, hfault, rfl⟩ | ⟨_, before, events, _, rfl, hfault, hrest⟩)
  · rcases hfault with ⟨h, -⟩ | ⟨f, _, hf, h, rfl⟩
    · cases h
    · cases h
      exact .fault hf
  · obtain rfl : before = c.faultAllowed response := by
      rcases hfault with ⟨-, h⟩ | ⟨_, _, -, h, -⟩
      · exact h
      · cases h
    rcases hrest with ⟨e, hstatus, rfl⟩ | ⟨_, before, events, _, rfl, hstatus, hlast⟩
    · rcases hstatus with ⟨h, -⟩ | ⟨_, hstatus, h, rfl⟩
      · cases h
      · cases h
        exact .status hstatus
    · obtain rfl : before = statusAllowed response := by
        rcases hstatus with ⟨-, h⟩ | ⟨_, -, h, -⟩
        · exact h
        · cases h
      rw [← List.append_assoc]
      rcases hlast with ⟨d, kept, hparsed, rfl, rfl⟩ | ⟨e, answer, hparsed, rfl, rfl⟩
      · exact .document hparsed
      · exact .missing hparsed

/-! ## What a course says -/

section Handled

variable {c : Dispatcher} {response : Response} {events : List Event}
  {result : Except CallError Reply}

@[simp] theorem mem_faultAllowed {event : Event} : event ∈ c.faultAllowed response ↔
    ∃ f, c.HoldsFault response f ∧ event = .fault f (.ok ()) := by
  simp [faultAllowed, ← fault?_eq_some_iff, eq_comm]

@[simp] theorem mem_allowed {event : Event} : event ∈ c.allowed response ↔
    (∃ f, c.HoldsFault response f ∧ event = .fault f (.ok ())) ∨
      400 ≤ response.status ∧ event = .status response (.ok ()) := by
  rw [allowed, List.mem_append, mem_faultAllowed, statusAllowed]
  by_cases hstatus : 400 ≤ response.status <;> simp [hstatus]

/-- Every event before the last one let the call go on. -/
theorem refusal_of_mem_allowed {event : Event} (h : event ∈ c.allowed response) :
    event.refusal = none := by
  rcases mem_allowed.1 h with ⟨f, -, rfl⟩ | ⟨-, rfl⟩ <;> rfl

theorem refusal_of_mem_faultAllowed {event : Event} (h : event ∈ c.faultAllowed response) :
    event.refusal = none :=
  refusal_of_mem_allowed (List.mem_append_left _ h)

theorem stage_of_mem_faultAllowed {event : Event} (h : event ∈ c.faultAllowed response) :
    event.stage = 3 := by
  obtain ⟨f, -, rfl⟩ := mem_faultAllowed.1 h
  rfl

theorem stage_of_mem_allowed {event : Event} (h : event ∈ c.allowed response) :
    2 < event.stage ∧ event.stage < 5 := by
  rcases mem_allowed.1 h with ⟨f, -, rfl⟩ | ⟨-, rfl⟩
  · show 2 < 3 ∧ 3 < 5
    omega
  · show 2 < 4 ∧ 4 < 5
    omega

theorem pairwise_concat {before : List Event} {last : Event}
    (h : before.Pairwise fun a b => a.stage < b.stage)
    (hlast : ∀ event ∈ before, event.stage < last.stage) :
    (before ++ [last]).Pairwise fun a b => a.stage < b.stage := by
  refine List.pairwise_append.2 ⟨h, List.pairwise_singleton _ _, ?_⟩
  intro a ha b hb
  rw [List.mem_singleton.1 hb]
  exact hlast a ha

theorem pairwise_faultAllowed :
    (c.faultAllowed response).Pairwise fun a b => a.stage < b.stage := by
  unfold faultAllowed
  cases c.fault? response <;> simp

theorem pairwise_allowed : (c.allowed response).Pairwise fun a b => a.stage < b.stage := by
  unfold allowed statusAllowed
  by_cases hstatus : 400 ≤ response.status
  · rw [if_pos hstatus]
    refine pairwise_concat pairwise_faultAllowed ?_
    intro event hevent
    rw [stage_of_mem_faultAllowed hevent]
    exact Nat.lt_succ_self 3
  · rw [if_neg hstatus, List.append_nil]
    exact pairwise_faultAllowed

/-- A course leads to one last event, and only this one can be a refusal. -/
theorem Handled.exists_last (h : Handled c response events result) :
    ∃ before last, events = before ++ [last] ∧ 2 < last.stage ∧
      (before.Pairwise fun a b => a.stage < b.stage) ∧
      (∀ event ∈ before, 2 < event.stage ∧ event.stage < last.stage ∧ event.refusal = none) ∧
      ∀ e, last.refusal = some e → result = .error e := by
  have hallowed : ∀ last : Event, last.stage = 5 → ∀ event ∈ c.allowed response,
      2 < event.stage ∧ event.stage < last.stage ∧ event.refusal = none := by
    intro last hlast event hevent
    obtain ⟨hlow, hhigh⟩ := stage_of_mem_allowed hevent
    exact ⟨hlow, hlast ▸ hhigh, refusal_of_mem_allowed hevent⟩
  cases h with
  | @fault f e hf =>
    refine ⟨[], .fault f (.error e), rfl, Nat.lt_succ_self 2, .nil, by simp, ?_⟩
    intro e' h
    cases h
    rfl
  | @status e hstatus =>
    refine ⟨_, _, rfl, ?_, pairwise_faultAllowed, ?_, ?_⟩
    · show 2 < 4
      omega
    · intro event hevent
      rw [stage_of_mem_faultAllowed hevent]
      exact ⟨Nat.lt_succ_self 2, Nat.lt_succ_self 3, refusal_of_mem_faultAllowed hevent⟩
    · intro e' h
      cases h
      rfl
  | @missing e answer hparsed =>
    refine ⟨_, _, rfl, ?_, pairwise_allowed, hallowed _ rfl, ?_⟩
    · show 2 < 5
      omega
    · intro e' h
      cases answer with
      | error refusal =>
        cases h
        rfl
      | ok u => cases h
  | document hparsed =>
    refine ⟨_, _, rfl, ?_, pairwise_allowed, hallowed _ rfl, ?_⟩
    · show 2 < 5
      omega
    · intro e' h
      cases h

/-- The events of a course come in the order of their stages, behind the sending. -/
theorem Handled.ordered (h : Handled c response events result) :
    events.Pairwise (fun a b => a.stage < b.stage) ∧ ∀ event ∈ events, 2 < event.stage := by
  obtain ⟨before, last, rfl, hlast, hpairwise, hbefore, -⟩ := h.exists_last
  refine ⟨pairwise_concat hpairwise fun event hevent => (hbefore event hevent).2.1, ?_⟩
  intro event hevent
  rcases List.mem_append.1 hevent with hevent | hevent
  · exact (hbefore event hevent).1
  · rw [List.mem_singleton.1 hevent]
    exact hlast

theorem Handled.refused (h : Handled c response events result) :
    ∀ event ∈ events, ∀ e, event.refusal = some e → result = .error e := by
  obtain ⟨before, last, rfl, -, -, hbefore, hlast⟩ := h.exists_last
  intro event hevent e he
  rcases List.mem_append.1 hevent with hevent | hevent
  · rw [(hbefore event hevent).2.2] at he
    cases he
  · rw [List.mem_singleton.1 hevent] at he
    exact hlast e he

theorem Handled.handles (h : Handled c response events result) :
    c.Handles response events result := by
  have hrefused := h.refused
  cases h with
  | @fault f e hf =>
    rw [fault?_eq_some_iff] at hf
    have honly : ∀ g, c.HoldsFault response g ↔ f = g := by
      intro g
      rw [← fault?_eq_some_iff, fault?_eq_some_iff.2 hf, Option.some.injEq]
    exact {
      fault := by simp [honly, eq_comm]
      status := by simp
      document := by simp
      missing := by simp
      refused := hrefused
      accepted := by simp [Event.refusal] }
  | status hstatus =>
    exact {
      fault := by simp
      status := by simp [hstatus, and_comm]
      document := by simp
      missing := by simp
      refused := hrefused
      accepted := fun h => by simpa [Event.refusal] using h _ (List.mem_concat_self) }
  | @missing e answer hparsed =>
    exact {
      fault := by simp
      status := by simp [and_comm]
      document := by simp [hparsed]
      missing := by simp [hparsed, eq_comm]
      refused := hrefused
      accepted := by
        intro hall
        cases answer with
        | error refusal => simpa [Event.refusal] using hall _ List.mem_concat_self
        | ok u => exact ⟨_, rfl, rfl, by simp [hparsed], by simp⟩ }
  | document hparsed =>
    exact {
      fault := by simp
      status := by simp [and_comm]
      document := by simp [hparsed, eq_comm]
      missing := by simp [hparsed]
      refused := hrefused
      accepted := fun _ => ⟨_, rfl, rfl, by simp [hparsed], by simp⟩ }

end Handled

/-- A response fails the call only by the refusal of a hook. -/
theorem Handles.exists_refusal {c : Dispatcher} {response : Response} {events : List Event}
    {result : Except CallError Reply} (h : c.Handles response events result) {e : CallError}
    (hresult : result = .error e) : ∃ event ∈ events, event.refusal = some e := by
  by_cases hrefused : ∃ event ∈ events, ∃ e, event.refusal = some e
  · obtain ⟨event, hevent, e', he'⟩ := hrefused
    have hsame := h.refused event hevent e' he'
    rw [hresult] at hsame
    cases hsame
    exact ⟨event, hevent, he'⟩
  · have hall : ∀ event ∈ events, event.refusal = none := by
      intro event hevent
      refine Option.eq_none_iff_forall_ne_some.2 ?_
      intro e' he'
      exact hrefused ⟨event, hevent, e', he'⟩
    obtain ⟨reply, hreply, -⟩ := h.accepted hall
    rw [hresult] at hreply
    cases hreply

/-- What comes before the response is handled does not matter to its handling. -/
theorem Handles.behind {c : Dispatcher} {response : Response} {events : List Event}
    {result : Except CallError Reply} (h : c.Handles response events result) (before : List Event)
    (hbefore : ∀ event ∈ before, event.stage ≤ 2) :
    c.Handles response (before ++ events) result := by
  have hmem : ∀ event : Event, 2 < event.stage → (event ∈ before ++ events ↔ event ∈ events) := by
    intro event hstage
    rw [List.mem_append, or_iff_right]
    intro hevent
    exact absurd (hbefore event hevent) (Nat.not_le.2 hstage)
  have hfault : ∀ f answer, .fault f answer ∈ before ++ events ↔ .fault f answer ∈ events :=
    fun f answer => hmem _ (Nat.lt_succ_self 2)
  have hstatus : ∀ other answer, .status other answer ∈ before ++ events ↔
      .status other answer ∈ events := fun other answer => hmem _ (show 2 < 4 by omega)
  have hdocument : ∀ d kept, .document d kept ∈ before ++ events ↔ .document d kept ∈ events :=
    fun d kept => hmem _ (show 2 < 5 by omega)
  have hmissing : ∀ other e answer, .missing other e answer ∈ before ++ events ↔
      .missing other e answer ∈ events := fun other e answer => hmem _ (show 2 < 5 by omega)
  exact {
    fault := by simpa only [hfault] using h.fault
    status := by simpa only [hfault, hstatus] using h.status
    document := by simpa only [hfault, hstatus, hdocument] using h.document
    missing := by simpa only [hfault, hstatus, hmissing] using h.missing
    refused := by
      intro event hevent e he
      rcases List.mem_append.1 hevent with hevent | hevent
      · rw [Event.refusal_eq_none_of_stage_le (hbefore event hevent)] at he
        cases he
      · exact h.refused event hevent e he
    accepted := by
      intro hall
      simpa only [hdocument] using
        h.accepted fun event hevent => hall event (List.mem_append_right _ hevent) }

/-- With the default hooks a response has its default outcome, whatever the state. -/
theorem handle_default (c : Dispatcher) (response : Response) (s : σ) :
    (c.handle (Hooks.default : Hooks (StateM σ)) response s).1 = c.defaultOutcome response := by
  rw [handle_eq, defaultOutcome, fault?]
  cases hparsed : c.parsed response with
  | error e =>
    by_cases hstatus : 400 ≤ response.status
    · simp [andThen, checkFault, checkStatus, hstatus, Hooks.default]
      rfl
    · simp [andThen, checkFault, checkStatus, hstatus, finish, Hooks.default]
      rfl
  | ok d =>
    obtain ⟨found, hfound⟩ := Fault.exists_detect d c.endpoint.version
    cases found with
    | some f =>
      simp [andThen, checkFault, hfound, Hooks.default]
      rfl
    | none =>
      by_cases hstatus : 400 ≤ response.status
      · simp [andThen, checkFault, hfound, checkStatus, hstatus, Hooks.default]
        rfl
      · simp [andThen, checkFault, hfound, checkStatus, hstatus, finish, Hooks.default]
        rfl

end Dispatcher

end SoapKit.Soap
