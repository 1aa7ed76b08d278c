import SoapKit.Soap.Call

/-!
# The course of a call

Everything that a call does to its surroundings is an event: a hook that is called, or a request
that is sent, each with what came of it. Hooks and a transport are wrapped so that they note these
events in a log and otherwise do what they did before (`Hooks.noted`, `Transport.noted`). A call is
a program over its hooks and its transport, so it runs with the wrapped ones as it is.

An action that notes does what it does without a log, and adds events at the end of it (`Notes`).
What is known of these events and of the result is put together along the program (`Notes.bind`).
-/

namespace SoapKit.Soap

open Xml (Document Draft DraftElement ParseError)
open Http (Request Response ResponseFault)

/-- What happens in a call, with what came of it. -/
inductive Event where
  /-- The hook on the envelope. -/
  | created (blank filled : Draft)
  /-- The hook on the request. -/
  | request (request : Request)
  | sent (request : Request) (answer : Except ResponseFault Response)
  /-- The hook on a fault. -/
  | fault (fault : Fault) (answer : Except CallError Unit)
  /-- The hook on an error status. -/
  | status (response : Response) (answer : Except CallError Unit)
  /-- The hook on the answer's document. -/
  | document (parsed kept : Document)
  /-- The hook on the absence of a document. -/
  | missing (response : Response) (e : ParseError) (answer : Except CallError Unit)

namespace Event

/-- How far a call has come: the envelope, the request, its sending, the fault, the status, and at
last the document or its absence. -/
def stage : Event → Nat
  | created .. => 0
  | request _ => 1
  | sent .. => 2
  | fault .. => 3
  | status .. => 4
  | document .. | missing .. => 5

/-- The error with which a hook about a failure refuses to go on. -/
def refusal : Event → Option CallError
  | fault _ (.error e) | status _ (.error e) | missing _ _ (.error e) => some e
  | _ => none

theorem refusal_eq_none_of_stage_le {event : Event} (h : event.stage ≤ 2) :
    event.refusal = none := by
  cases event with
  | created | request | sent => rfl
  | fault | status | document | missing => simp [stage] at h

end Event

/-! ## Noting -/

variable {σ α β : Type}

/-- Does what an action does and notes an event about its result. -/
def note (act : StateM σ α) (event : α → Event) : StateM (σ × List Event) α := fun s =>
  let (a, after) := act s.1
  (a, after, s.2 ++ [event a])

/-- Does what an action does and leaves the log as it is. -/
def beside (act : StateM σ α) : StateM (σ × List Event) α := fun s =>
  let (a, after) := act s.1
  (a, after, s.2)

/-- Hooks that note their calls. -/
def Hooks.noted (hooks : Hooks (StateM σ)) : Hooks (StateM (σ × List Event)) where
  onCreate draft := note (hooks.onCreate draft) (.created draft)
  onRequest request := note (hooks.onRequest request) fun _ => .request request
  onDocument d := note (hooks.onDocument d) (.document d)
  onFault f := note (hooks.onFault f) (.fault f)
  onHttpError response := note (hooks.onHttpError response) (.status response)
  onMissingDocument response e := note (hooks.onMissingDocument response e) (.missing response e)

/-- A transport that notes what it sends. -/
def Transport.noted (transport : Transport (StateM σ)) : Transport (StateM (σ × List Event)) :=
  fun request => note (transport request) (.sent request)

/-- What happens in a call that is made in a state. -/
def Dispatcher.events (c : Dispatcher) (transport : Transport (StateM σ))
    (hooks : Hooks (StateM σ)) (action : String) (header : ActionHeader)
    (build : DraftElement → StateM σ DraftElement) (s : σ) : List Event :=
  (c.invoke (Transport.noted transport) hooks.noted action header (fun e => beside (build e))
    (s, [])).2.2

/-- A sequence that ends at the first error. -/
def andThen {m : Type → Type} [Monad m] {ε α β : Type} (act : m (Except ε α))
    (next : α → m (Except ε β)) : m (Except ε β) := do
  match ← act with
  | .error e => return .error e
  | .ok a => next a

/-! ## Noting changes nothing else -/

/-- An action that notes has the result of an action without a log and leaves the same state. The
events it adds are related to the state before and to the result. -/
def Notes (noting : StateM (σ × List Event) α) (act : StateM σ α)
    (P : σ → List Event → α → Prop) : Prop :=
  ∀ s log, ∃ events, noting (s, log) = ((act s).1, (act s).2, log ++ events) ∧
    P s events (act s).1

theorem notes_pure (a : α) :
    Notes (pure a) (pure a : StateM σ α) fun _ events b => events = [] ∧ b = a := by
  intro s log
  refine ⟨[], ?_, rfl, rfl⟩
  rw [List.append_nil]
  rfl

theorem notes_note (act : StateM σ α) (event : α → Event) :
    Notes (note act event) act fun s events a => events = [event a] ∧ a = (act s).1 := by
  intro s log
  exact ⟨[event (act s).1], rfl, rfl, rfl⟩

theorem notes_beside (act : StateM σ α) :
    Notes (beside act) act fun _ events _ => events = [] := by
  intro s log
  refine ⟨[], ?_, rfl⟩
  rw [List.append_nil]
  rfl

namespace Notes

variable {noting : StateM (σ × List Event) α} {act : StateM σ α} {P : σ → List Event → α → Prop}

theorem imp {Q : σ → List Event → α → Prop} (h : Notes noting act P)
    (hPQ : ∀ s events a, P s events a → Q s events a) : Notes noting act Q := by
  intro s log
  obtain ⟨events, hrun, hP⟩ := h s log
  exact ⟨events, hrun, hPQ s events _ hP⟩

/-- The result is that of the action without a log. -/
theorem result_eq (h : Notes noting act P) :
    Notes noting act fun s events a => P s events a ∧ a = (act s).1 := by
  intro s log
  obtain ⟨events, hrun, hP⟩ := h s log
  exact ⟨events, hrun, hP, rfl⟩

theorem bind {noting' : α → StateM (σ × List Event) β} {act' : α → StateM σ β}
    {Q : α → σ → List Event → β → Prop} (h : Notes noting act P)
    (h' : ∀ a, Notes (noting' a) (act' a) (Q a)) :
    Notes (noting >>= noting') (act >>= act') fun s events b =>
      ∃ before after, events = before ++ after ∧ P s before (act s).1 ∧
        Q (act s).1 (act s).2 after b := by
  intro s log
  obtain ⟨before, hrun, hP⟩ := h s log
  obtain ⟨after, hrun', hQ⟩ := h' (act s).1 (act s).2 (log ++ before)
  refine ⟨before ++ after, ?_, before, after, rfl, hP, hQ⟩
  show noting' (noting (s, log)).1 (noting (s, log)).2 = _
  rw [hrun, ← List.append_assoc]
  exact hrun'

theorem andThen {ε : Type} {noting : StateM (σ × List Event) (Except ε α)}
    {act : StateM σ (Except ε α)} {P : σ → List Event → Except ε α → Prop}
    {noting' : α → StateM (σ × List Event) (Except ε β)} {act' : α → StateM σ (Except ε β)}
    {Q : α → σ → List Event → Except ε β → Prop} (h : Notes noting act P)
    (h' : ∀ a, Notes (noting' a) (act' a) (Q a)) :
    Notes (andThen noting noting') (andThen act act') fun s events result =>
      (∃ e, P s events (.error e) ∧ result = .error e) ∨
        ∃ a before after s', events = before ++ after ∧ P s before (.ok a) ∧
          Q a s' after result := by
  refine (h.bind (Q := fun r s events result => match r with
    | .error e => events = [] ∧ result = .error e
    | .ok a => Q a s events result) ?_).imp ?_
  · intro r
    cases r with
    | error e => exact notes_pure _
    | ok a => exact h' a
  · rintro s events result ⟨before, after, rfl, hP, hQ⟩
    cases hr : (act s).1 with
    | error e =>
      rw [hr] at hP hQ
      obtain ⟨rfl, rfl⟩ := hQ
      exact .inl ⟨e, by rwa [List.append_nil], rfl⟩
    | ok a =>
      rw [hr] at hP hQ
      exact .inr ⟨a, before, after, _, rfl, hP, hQ⟩

end Notes

end SoapKit.Soap
