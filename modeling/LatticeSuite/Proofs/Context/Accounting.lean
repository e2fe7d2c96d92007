import LatticeSuite.Proofs.Context.Runs
import Mathlib.Data.List.DropRight

/-!
# The books of a context's failures

The record of failures is a queue of at most `ErrorStack.capacity` records with
two counters, one of which survives a clearing and one of which does not. What
a caller knows is something else: the calls it made and the answers it got.
This file ties the two together, through overflow, partial draining, a queue
that is filled again after it was drained, and calls on a destroyed context.

`Booking j event s s'` is what one call does to the record `s` when `j` calls
have failed before it. `Accounts history s` is what the record says about the
whole history. A context that was created starts with balanced books, and each
booking keeps them balanced:

> The failures since the last clearing are the records taken since then, the
> records held and the failures dropped.

That no record is handed out twice, and that they come out in the order of the
failures, is one statement: what was handed out so far, followed by what is
held, is strictly increasing in the sequence numbers.
-/

namespace LatticeSuite

/-! ## What a history says -/

namespace Event

/-- Whether the call failed. -/
def failed (event : Event) : Bool :=
  match event.answer with
  | .error _ => true
  | .ok _ => false

/-- The record that the call took out of the context, if it took one. -/
def handed? (event : Event) : Option (ErrorRecord Unit) :=
  match event.call, event.answer with
  | .takeError, .ok (.failure record) => record
  | _, _ => none

end Event

/-- The number of calls that failed. -/
def failures (history : List Event) : Nat :=
  history.countP Event.failed

/-- The records that were handed out, the first one first. -/
def handed (history : List Event) : List (ErrorRecord Unit) :=
  history.filterMap Event.handed?

/-- What happened after the last clearing. -/
def sinceClear (history : List Event) : List Event :=
  history.rtakeWhile fun event => event.call ≠ .clearErrors

theorem failures_error (history : List Event) (call : Call) (e : ContextError) :
    failures (history ++ [⟨call, .error e⟩]) = failures history + 1 := by
  rw [failures, List.countP_append]
  rfl

theorem failures_ok (history : List Event) (call : Call) (reply : Reply) :
    failures (history ++ [⟨call, .ok reply⟩]) = failures history := by
  rw [failures, List.countP_append]
  rfl

theorem handed_concat (history : List Event) (event : Event) :
    handed (history ++ [event]) = handed history ++ event.handed?.toList := by
  rw [handed, List.filterMap_append]
  cases h : event.handed? with
  | none => simp [handed, h]
  | some r => simp [handed, h]

theorem handed_error (history : List Event) (call : Call) (e : ContextError) :
    handed (history ++ [⟨call, .error e⟩]) = handed history := by
  have hnone : Event.handed? ⟨call, .error e⟩ = none := by
    unfold Event.handed?
    split
    next hanswer => exact absurd hanswer (by simp)
    next => rfl
  rw [handed_concat, hnone, Option.toList_none, List.append_nil]

theorem handed_of_ne {event : Event} (h : event.call ≠ .takeError) (history : List Event) :
    handed (history ++ [event]) = handed history := by
  have hnone : event.handed? = none := by
    unfold Event.handed?
    split
    next htake _ => exact absurd htake h
    next => rfl
  rw [handed_concat, hnone, Option.toList_none, List.append_nil]

theorem handed_taken (history : List Event) (record : Option (ErrorRecord Unit)) :
    handed (history ++ [⟨.takeError, .ok (.failure record)⟩]) =
      handed history ++ record.toList := by
  rw [handed_concat]
  rfl

theorem sinceClear_concat {event : Event} (h : event.call ≠ .clearErrors)
    (history : List Event) : sinceClear (history ++ [event]) = sinceClear history ++ [event] :=
  List.rtakeWhile_concat_pos _ _ _ (by simpa using h)

theorem sinceClear_clear {event : Event} (h : event.call = .clearErrors) (history : List Event) :
    sinceClear (history ++ [event]) = [] :=
  List.rtakeWhile_concat_neg _ _ _ (by simpa using h)

/-! ## One call -/

/-- What a call with its answer does to a record of failures when `j` calls have
failed before. A clearing does not fail. -/
inductive Booking (j : Nat) : Event → ErrorStack Unit → ErrorStack Unit → Prop
  /-- A failure is recorded while there is room. -/
  | recorded {call : Call} {e : ContextError} {s : ErrorStack Unit}
      (hclear : call ≠ .clearErrors) (hroom : s.length < ErrorStack.capacity) :
    Booking j ⟨call, .error e⟩ s
      { s with
        records := s.records ++ [{ code := e.code, place := (), sequence := j }]
        nextSequence := j + 1 }
  /-- A failure that finds no room is only counted. -/
  | dropped {call : Call} {e : ContextError} {s : ErrorStack Unit}
      (hclear : call ≠ .clearErrors) (hfull : ErrorStack.capacity ≤ s.length) :
    Booking j ⟨call, .error e⟩ s { s with nextSequence := j + 1, dropped := s.dropped + 1 }
  /-- The oldest record is handed out, if there is one. -/
  | taken {s : ErrorStack Unit} :
    Booking j ⟨.takeError, .ok (.failure s.records.head?)⟩ s { s with records := s.records.tail }
  | cleared {s : ErrorStack Unit} :
    Booking j ⟨.clearErrors, .ok .done⟩ s { s with records := [], dropped := 0 }
  /-- Any other call that succeeds is not booked. -/
  | untouched {call : Call} {reply : Reply} {s : ErrorStack Unit} (htake : call ≠ .takeError)
      (hclear : call ≠ .clearErrors) :
    Booking j ⟨call, .ok reply⟩ s s

theorem booking_push {call : Call} (hclear : call ≠ .clearErrors) (e : ContextError)
    (s : ErrorStack Unit) : Booking s.nextSequence ⟨call, .error e⟩ s (s.push e.code ()) := by
  unfold ErrorStack.push
  split
  next hroom => exact .recorded hclear hroom
  next hfull => exact .dropped hclear (Nat.le_of_not_lt hfull)

variable {σ : Type}

@[simp] theorem Context.errors_storeKey (c : Context σ) (key : KeyMaterial) :
    (c.storeKey key).errors = c.errors := by
  unfold storeKey
  split <;> rfl

/-- A success is booked only if it is a call of the record. -/
theorem Success.booking {c c' : Context σ} {entropy left : Entropy} {call : Call} {reply : Reply}
    (h : Success c entropy call reply c' left) (j : Nat) :
    Booking j ⟨call, .ok reply⟩ c.errors c'.errors := by
  cases h with
  | takeError => exact .taken
  | clearErrors => exact .cleared
  | @keygen m _ left pair state =>
    -- two keys are stored, and neither touches the record
    have hkeep : ((c.withMachine { m with csprng := left.csprng, state }).storePair pair).errors =
        c.errors := by
      rw [Context.storePair, Context.errors_storeKey, Context.errors_storeKey]
      rfl
    dsimp only
    rw [hkeep]
    exact .untouched (by simp) (by simp)
  | loadKey =>
    dsimp only
    rw [Context.errors_storeKey]
    exact .untouched (by simp) (by simp)
  | _ => exact .untouched (by simp) (by simp)

theorem booking_perform (c : Context σ) (call : Call) (entropy : Entropy) :
    Booking c.errors.nextSequence ⟨call, (c.perform call entropy).1.answer⟩ c.errors
      (c.perform call entropy).1.context.errors := by
  rcases c.ends_perform call entropy with
    ⟨e, csprng, backend, hanswer, hcontext, -⟩ | ⟨reply, hanswer, hsuccess⟩
  · -- a clearing is answered without looking at anything
    have hclear : call ≠ .clearErrors := by
      rintro rfl
      exact absurd hanswer (by simp [Context.perform, Context.settled])
    rw [hanswer, hcontext]
    exact booking_push hclear e c.errors
  · rw [hanswer]
    exact hsuccess.booking _

/-! ## The whole history -/

/-- What the record of failures says about the history behind it. -/
structure Accounts (history : List Event) (s : ErrorStack Unit) : Prop where
  next : s.nextSequence = failures history
  bounded : s.length ≤ ErrorStack.capacity
  ordered : ((handed history ++ s.records).map ErrorRecord.sequence).Pairwise (· < ·)
  /-- Every record is of a failure of the history. -/
  known : ∀ r ∈ handed history ++ s.records, r.sequence < failures history
  balanced : failures (sinceClear history) =
    (handed (sinceClear history)).length + s.length + s.dropped

theorem accounts_nil : Accounts [] {} := by
  refine ⟨rfl, Nat.zero_le _, List.Pairwise.nil, ?_, rfl⟩
  intro r hr
  exact absurd hr List.not_mem_nil

namespace Accounts

variable {history : List Event} {s : ErrorStack Unit}

/-- The sequence number of the next failure is greater than that of every record. -/
theorem pairwise_concat (h : Accounts history s) (r : ErrorRecord Unit)
    (hr : r.sequence = failures history) :
    ((handed history ++ (s.records ++ [r])).map ErrorRecord.sequence).Pairwise (· < ·) := by
  rw [← List.append_assoc, List.map_append, List.pairwise_append]
  refine ⟨h.ordered, List.pairwise_singleton _ _, ?_⟩
  intro x hx y hy
  obtain ⟨r', hr', rfl⟩ := List.mem_map.mp hx
  obtain rfl := List.mem_singleton.mp hy
  rw [hr]
  exact h.known r' hr'

theorem recorded (h : Accounts history s) {call : Call} (hclear : call ≠ .clearErrors)
    (e : ContextError) (hroom : s.length < ErrorStack.capacity) :
    Accounts (history ++ [⟨call, .error e⟩])
      { s with
        records := s.records ++ [{ code := e.code, place := (), sequence := s.nextSequence }]
        nextSequence := s.nextSequence + 1 } := by
  refine ⟨?_, ?_, ?_, ?_, ?_⟩
  · rw [failures_error, ← h.next]
  · rw [ErrorStack.length, List.length_append]
    exact hroom
  · rw [handed_error]
    exact h.pairwise_concat _ h.next
  · intro r hr
    rw [handed_error, ← List.append_assoc] at hr
    rw [failures_error]
    rcases List.mem_append.mp hr with hold | hnew
    · exact Nat.lt_succ_of_lt (h.known r hold)
    · obtain rfl := List.mem_singleton.mp hnew
      rw [← h.next]
      exact Nat.lt_succ_self _
  · -- one failure more, and one record more that is held
    have hbalanced := h.balanced
    rw [sinceClear_concat hclear, failures_error, handed_error]
    simp only [ErrorStack.length, List.length_append, List.length_singleton] at hbalanced ⊢
    omega

theorem dropped (h : Accounts history s) {call : Call} (hclear : call ≠ .clearErrors)
    (e : ContextError) :
    Accounts (history ++ [⟨call, .error e⟩])
      { s with nextSequence := s.nextSequence + 1, dropped := s.dropped + 1 } := by
  refine ⟨?_, h.bounded, ?_, ?_, ?_⟩
  · rw [failures_error, ← h.next]
  · rw [handed_error]
    exact h.ordered
  · intro r hr
    rw [handed_error] at hr
    rw [failures_error]
    exact Nat.lt_succ_of_lt (h.known r hr)
  · have hbalanced := h.balanced
    rw [sinceClear_concat hclear, failures_error, handed_error]
    simp only [ErrorStack.length] at hbalanced ⊢
    omega

/-- Taking a record out moves it from the held records to the handed ones. -/
theorem taken (h : Accounts history s) :
    Accounts (history ++ [⟨.takeError, .ok (.failure s.records.head?)⟩])
      { s with records := s.records.tail } := by
  -- handed and held, end to end, is the same list before and after
  have hmove : handed (history ++ [⟨.takeError, .ok (.failure s.records.head?)⟩]) ++
      s.records.tail = handed history ++ s.records := by
    rw [handed_taken, List.append_assoc]
    cases s.records with
    | nil => rfl
    | cons r records => rfl
  have hlength : s.records.head?.toList.length + s.records.tail.length = s.records.length := by
    cases s.records with
    | nil => rfl
    | cons r records => exact Nat.add_comm 1 records.length
  refine ⟨?_, ?_, ?_, ?_, ?_⟩
  · rw [failures_ok]
    exact h.next
  · exact Nat.le_trans (by simp [ErrorStack.length]) h.bounded
  · rw [hmove]
    exact h.ordered
  · intro r hr
    rw [hmove] at hr
    rw [failures_ok]
    exact h.known r hr
  · have hbalanced := h.balanced
    rw [sinceClear_concat (by simp), failures_ok, handed_taken, List.length_append]
    simp only [ErrorStack.length] at hbalanced ⊢
    omega

/-- A clearing starts a new account, but the numbering of the failures goes on. -/
theorem cleared (h : Accounts history s) :
    Accounts (history ++ [⟨.clearErrors, .ok .done⟩]) { s with records := [], dropped := 0 } := by
  have hkept : handed (history ++ [⟨.clearErrors, .ok .done⟩]) ++ [] = handed history := by
    rw [handed_of_ne (by simp), List.append_nil]
  have hsub : (handed history).Sublist (handed history ++ s.records) :=
    List.sublist_append_left _ _
  refine ⟨?_, Nat.zero_le _, ?_, ?_, ?_⟩
  · rw [failures_ok]
    exact h.next
  · rw [hkept]
    exact h.ordered.sublist (hsub.map _)
  · intro r hr
    rw [hkept] at hr
    rw [failures_ok]
    exact h.known r (hsub.subset hr)
  · rw [sinceClear_clear rfl]
    rfl

theorem untouched (h : Accounts history s) {call : Call} {reply : Reply}
    (htake : call ≠ .takeError) (hclear : call ≠ .clearErrors) :
    Accounts (history ++ [⟨call, .ok reply⟩]) s := by
  refine ⟨?_, h.bounded, ?_, ?_, ?_⟩
  · rw [failures_ok]
    exact h.next
  · rw [handed_of_ne htake]
    exact h.ordered
  · rw [handed_of_ne htake, failures_ok]
    exact h.known
  · rw [sinceClear_concat hclear, failures_ok, handed_of_ne htake]
    exact h.balanced

/-- **A booking keeps the books balanced.** -/
theorem booking (h : Accounts history s) {event : Event} {s' : ErrorStack Unit}
    (hb : Booking s.nextSequence event s s') : Accounts (history ++ [event]) s' := by
  cases hb with
  | recorded hclear hroom => exact h.recorded hclear _ hroom
  | dropped hclear => exact h.dropped hclear _
  | taken => exact h.taken
  | cleared => exact h.cleared
  | untouched htake hclear => exact h.untouched htake hclear

end Accounts

theorem Context.Reaches.accounts {c₀ c : Context σ} {history : List Event} (hnew : c₀.IsNew)
    (h : c₀.Reaches history c) : Accounts history c.errors := by
  -- by induction on the history: one booking for each call
  induction h with
  | start =>
    rw [hnew.errors_eq]
    exact accounts_nil
  | call _ call entropy ih => exact ih.booking (booking_perform _ call entropy)

/-- **The record of failures accounts for the whole life of a context.** In every
state that a created context can reach, no more records are held than there is
room for, the records handed out so far and those held are numbered in the order
of their failures, and the failures since the last clearing are the records
taken since then, those held and those dropped. And the next call, whatever it
is, books its outcome: a failure under the number of failures before it. -/
theorem failures_are_accounted_for {c₀ c : Context σ} {history : List Event}
    (hnew : c₀.IsNew) (h : c₀.Reaches history c) :
    c.errors.length ≤ ErrorStack.capacity ∧
      ((handed history ++ c.errors.records).map ErrorRecord.sequence).Pairwise (· < ·) ∧
      failures (sinceClear history) =
        (handed (sinceClear history)).length + c.errors.length + c.errors.dropped ∧
      ∀ call entropy,
        Booking (failures history) ⟨call, (c.perform call entropy).1.answer⟩ c.errors
          (c.perform call entropy).1.context.errors := by
  have haccounts := h.accounts hnew
  refine ⟨haccounts.bounded, haccounts.ordered, haccounts.balanced, ?_⟩
  intro call entropy
  rw [← haccounts.next]
  exact booking_perform c call entropy

/-- The law on a new context that is asked to sign without a key, is destroyed,
is asked for a key, and hands out the first of its two failures. -/
theorem failures_are_accounted_for_beyond_destruction :
    ∃ (c₀ c : Context Unit) (history : List Event), c₀.IsNew ∧ c₀.Reaches history c ∧
      history.map Event.call = [.sign [1], .destroy, .keygen, .takeError] ∧
      c.errors.length ≤ ErrorStack.capacity ∧
      ((handed history ++ c.errors.records).map ErrorRecord.sequence).Pairwise (· < ·) ∧
      failures (sinceClear history) =
        (handed (sinceClear history)).length + c.errors.length + c.errors.dropped ∧
      ∀ call entropy,
        Booking (failures history) ⟨call, (c.perform call entropy).1.answer⟩ c.errors
          (c.perform call entropy).1.context.errors := by
  obtain ⟨c₀, hcreate⟩ : ∃ c₀ : Context Unit,
      (ContextSettings.create { scheme := .sigDilithium, paramSet := 0 } Registry.builtIn
        { host := fun _ _ n => .ok (List.replicate n 7) }).answer = .ok c₀ := ⟨_, rfl⟩
  have hnew : c₀.IsNew := ⟨_, _, _, hcreate⟩
  have hreach := c₀.reaches_run [.sign [1], .destroy, .keygen, .takeError] {}
  exact ⟨c₀, _, _, hnew, hreach, rfl, failures_are_accounted_for hnew hreach⟩

end LatticeSuite
