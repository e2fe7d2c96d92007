import LatticeSuite.Proofs.Context.Effects
import LatticeSuite.Proofs.Context.Signing

/-!
# The verbosity only filters the log

Records are logged in many places: before there is a context, at the end of every call
that failed, after a key generation, when a context goes. At each of them the verbosity
is asked, and an application that turns it up to see more must not see something else.

> From the creation to the drop, a context at any verbosity does what it does at
> `debug`, and logs the part of it that the verbosity enables
> (`ContextSettings.verbosity_only_filters_the_log`).

`Context.atLevel` is the same context at another verbosity, and the law is one equation
for each thing that can be done: doing it to `c.atLevel d` comes to the same as doing
it to a `c` that logs everything, with the verbosity changed and the log sifted
afterwards. The calls have it because each has one `Effect` whatever is on record, and
the verbosity is on record.
-/

namespace LatticeSuite

variable {σ α ι : Type}

/-- The context with another verbosity. -/
def Context.atLevel (c : Context σ) (d : DebugLevel) : Context σ :=
  { c with debugLevel := d }

/-- The outcome of a call, had the context another verbosity. -/
def Outcome.atLevel (o : Outcome σ α) (d : DebugLevel) : Outcome σ α :=
  { answer := o.answer, context := o.context.atLevel d, log := d.sift o.log }

/-- The turn is a call that sets the verbosity. -/
def Context.Turn.setsVerbosity : Turn ι → Bool
  | .call _ made => made.setsVerbosity
  | .elsewhere _ => false

/-- What came of a script, had the context another verbosity. -/
def Context.Played.atLevel (p : Played ι σ) (d : DebugLevel) : Played ι σ :=
  { p with context := p.context.atLevel d, log := d.sift p.log }

/-- The effect of a call at another verbosity is the same, and shows less of itself. -/
theorem Effect.on_atLevel {c : Context σ} (e : Effect σ α) (hloud : c.debugLevel = .debug)
    (d : DebugLevel) : e.on { c.records with debugLevel := d } = (e.on c.records).atLevel d := by
  have hlog : c.records.debugLevel.sift e.log = e.log := by
    show c.debugLevel.sift e.log = e.log
    rw [hloud, DebugLevel.sift_debug]
  unfold Outcome.atLevel Effect.on
  dsimp only
  rw [hlog]
  rfl

namespace Context

variable {c : Context σ}

theorem emit_atLevel (hloud : c.debugLevel = .debug) (d : DebugLevel) (level : LogLevel)
    (message : String) : (c.atLevel d).emit level message = d.sift (c.emit level message) := by
  rw [emit_eq_sift, emit_eq_sift, hloud, DebugLevel.sift_debug]
  rfl

/-! ## The calls -/

/-- **A call at another verbosity** comes to the same, but for what it logs. -/
theorem perform_atLevel (hloud : c.debugLevel = .debug) {call : Call}
    (hsets : call.setsVerbosity = false) (entropy : Entropy) (d : DebugLevel) :
    (c.atLevel d).perform call entropy =
      ((c.perform call entropy).1.atLevel d, (c.perform call entropy).2) := by
  cases hreads : call.readsFailures with
  | true =>
    -- the failures are read in two ways, and neither logs anything
    rcases Call.eq_of_readsFailures hreads with rfl | rfl
    · rfl
    · rfl
  | false =>
    obtain ⟨e, left, he⟩ := c.exists_effect hreads hsets entropy
    have hhere : c.perform call entropy = (e.on c.records, left) := he c.records
    have hthere : (c.atLevel d).perform call entropy =
        (e.on { c.records with debugLevel := d }, left) := he { c.records with debugLevel := d }
    rw [hhere, hthere, e.on_atLevel hloud]

theorem atLevel_self (hloud : c.debugLevel = .debug) : c.atLevel .debug = c := by
  unfold atLevel
  rw [← hloud]

theorem debugLevel_perform (hloud : c.debugLevel = .debug) {call : Call}
    (hsets : call.setsVerbosity = false) (entropy : Entropy) :
    (c.perform call entropy).1.context.debugLevel = .debug := by
  have hsame := perform_atLevel hloud hsets entropy .debug
  rw [atLevel_self hloud] at hsame
  rw [hsame]
  rfl

/-- A script at another verbosity. -/
theorem play_atLevel (hloud : c.debugLevel = .debug) {script : List (Turn ι)}
    (hsets : ∀ turn ∈ script, turn.setsVerbosity = false) (entropy : Entropy) (d : DebugLevel) :
    (c.atLevel d).play script entropy = (c.play script entropy).atLevel d := by
  induction script generalizing c entropy with
  | nil => rfl
  | cons turn script ih =>
    obtain ⟨hturn, hscript⟩ := List.forall_mem_cons.mp hsets
    cases turn with
    | elsewhere change => exact ih hloud hscript (change entropy)
    | call mark call =>
      have hstays := debugLevel_perform hloud hturn entropy
      have hcontext : ((c.perform call entropy).1.atLevel d).context =
          (c.perform call entropy).1.context.atLevel d := rfl
      simp only [play, perform_atLevel hloud hturn]
      rw [hcontext, ih hstays hscript]
      simp only [Played.atLevel, Outcome.atLevel, DebugLevel.sift_append]

theorem debugLevel_play (hloud : c.debugLevel = .debug) {script : List (Turn ι)}
    (hsets : ∀ turn ∈ script, turn.setsVerbosity = false) (entropy : Entropy) :
    (c.play script entropy).context.debugLevel = .debug := by
  have hsame := play_atLevel hloud hsets entropy .debug
  rw [atLevel_self hloud] at hsame
  rw [hsame]
  rfl

theorem destroy_atLevel (hloud : c.debugLevel = .debug) (d : DebugLevel) :
    (c.atLevel d).destroy = c.destroy.atLevel d := by
  have hquiet : Call.destroy.setsVerbosity = false := rfl
  exact congrArg Prod.fst (perform_atLevel hloud hquiet {} d)

end Context

/-! ## From the creation to the drop -/

namespace ContextSettings

open Context

/-- What comes of a creation, had the settings another verbosity. -/
def Created.atLevel (made : Created σ) (d : DebugLevel) : Created σ :=
  { made with answer := made.answer.map (·.atLevel d), log := d.sift made.log }

theorem build_atLevel (s : ContextSettings) (registry : Registry σ) (entropy : Entropy)
    (d : DebugLevel) :
    { s with debugLevel := d }.build registry entropy =
      ((s.build registry entropy).1.map (·.atLevel d), (s.build registry entropy).2) := by
  unfold build
  dsimp only
  split
  next => rfl
  next features _ =>
    split
    next => rfl
    next entry _ =>
      split
      next => rfl
      next csprng left _ =>
        split
        next => rfl
        next => rfl

theorem announce_atLevel {c : Context σ} (hloud : c.debugLevel = .debug) (d : DebugLevel) :
    announce (c.atLevel d) = d.sift (announce c) := by
  unfold announce
  -- two of the four are logged on a condition, in which the verbosity has no part
  simp only [DebugLevel.sift_append, apply_ite d.sift, DebugLevel.sift_nil,
    ← emit_atLevel hloud d]
  rfl

theorem debugLevel_of_build {s : ContextSettings} {registry : Registry σ} {entropy : Entropy}
    {c : Context σ} (h : (s.build registry entropy).1 = .ok c) : c.debugLevel = s.debugLevel := by
  have hsame : (s.build registry entropy).1 =
      (s.build registry entropy).1.map (·.atLevel s.debugLevel) :=
    congrArg Prod.fst (s.build_atLevel registry entropy s.debugLevel)
  rw [h] at hsame
  rw [Except.ok.inj hsame]
  rfl

/-- **A creation at another verbosity**, whether it succeeds or not. -/
theorem create_atLevel {s : ContextSettings} (hloud : s.debugLevel = .debug)
    (registry : Registry σ) (entropy : Entropy) (d : DebugLevel) :
    { s with debugLevel := d }.create registry entropy =
      (s.create registry entropy).atLevel d := by
  unfold create
  rw [build_atLevel]
  rcases hbuild : s.build registry entropy with ⟨e | c, left⟩
  · dsimp only [Except.map, Created.atLevel]
    rw [DebugLevel.emit_eq_sift, DebugLevel.emit_eq_sift, hloud, DebugLevel.sift_debug]
  · have hc : c.debugLevel = .debug := by
      rw [← hloud]
      exact debugLevel_of_build (congrArg Prod.fst hbuild)
    dsimp only [Except.map, Created.atLevel]
    rw [announce_atLevel hc]

/-- The course of a context that was created: what it was at first, what its calls
answered, what it was after them, and what the drop made of it. -/
structure Course (ι σ : Type) where
  created : Context σ
  events : List (ι × Event)
  last : Context σ
  dropped : Context σ

/-- What came of settings and a script. -/
structure Life (ι σ : Type) where
  /-- The course of the context, or why there was none. -/
  course : Except ContextError (Course ι σ)
  entropy : Entropy
  log : List LogRecord

/-- Create a context, play a script on it, and drop it, which destroys it. -/
def live (s : ContextSettings) (registry : Registry σ) (script : List (Turn ι))
    (entropy : Entropy) : Life ι σ :=
  let made := s.create registry entropy
  match made.answer with
  | .error e => { course := .error e, entropy := made.entropy, log := made.log }
  | .ok c =>
    let played := c.play script made.entropy
    let dropped := played.context.destroy
    { course := .ok
        { created := c, events := played.events, last := played.context
          dropped := dropped.context }
      entropy := played.entropy
      log := made.log ++ played.log ++ dropped.log }

/-- The course, had the context another verbosity. -/
def Course.atLevel (course : Course ι σ) (d : DebugLevel) : Course ι σ :=
  { created := course.created.atLevel d
    events := course.events
    last := course.last.atLevel d
    dropped := course.dropped.atLevel d }

theorem live_atLevel {s : ContextSettings} (hloud : s.debugLevel = .debug)
    (registry : Registry σ) {script : List (Turn ι)}
    (hsets : ∀ turn ∈ script, turn.setsVerbosity = false) (entropy : Entropy) (d : DebugLevel) :
    { s with debugLevel := d }.live registry script entropy =
      { course := (s.live registry script entropy).course.map (·.atLevel d)
        entropy := (s.live registry script entropy).entropy
        log := d.sift (s.live registry script entropy).log } := by
  unfold live
  rw [create_atLevel hloud]
  rcases hmade : s.create registry entropy with ⟨e | c, left, log⟩
  · rfl
  · have hc : c.debugLevel = .debug := by
      obtain ⟨_, features, entry, csprng, backend, -, -, -, -, rfl⟩ :=
        built_of_create (congrArg Created.answer hmade)
      exact hloud
    have hlast := debugLevel_play hc hsets left
    dsimp only [Created.atLevel, Except.map]
    rw [play_atLevel hc hsets]
    dsimp only [Played.atLevel]
    rw [destroy_atLevel hlast]
    simp only [DebugLevel.sift_append]
    rfl

/-- **The verbosity only filters the log.** Two contexts that are created from the same
settings but for the verbosity, one at `debug`, live through the same: the creation
succeeds for both or fails for both with the same error, the calls of a script that
leaves the verbosity alone get the same answers, the contexts are the same but for the
verbosity before, after and behind the drop, and so is the entropy. What the other logs
is what the one at `debug` logs, in that order, without the records that its verbosity
does not enable; at `none` it is nothing. -/
theorem verbosity_only_filters_the_log (s : ContextSettings) (registry : Registry σ)
    {script : List (Turn ι)} (hsets : ∀ turn ∈ script, turn.setsVerbosity = false)
    (entropy : Entropy) (d : DebugLevel) :
    let loud := { s with debugLevel := .debug }.live registry script entropy
    let heard := { s with debugLevel := d }.live registry script entropy
    heard.course = loud.course.map (·.atLevel d) ∧ heard.entropy = loud.entropy ∧
      heard.log = loud.log.filter (fun record => d.enables record.level) ∧
      (d = .none → heard.log = []) := by
  intro loud heard
  have hheard : heard =
      { course := loud.course.map (·.atLevel d), entropy := loud.entropy
        log := d.sift loud.log } :=
    live_atLevel (s := { s with debugLevel := .debug }) rfl registry hsets entropy d
  rw [hheard]
  refine ⟨rfl, rfl, rfl, ?_⟩
  intro hnone
  rw [hnone]
  exact DebugLevel.sift_none loud.log

/-- The law on a context that repeats messages, where a failure, a key generation and the
drop are logged, and on a creation that fails. -/
theorem verbosity_only_filters_the_log_of_an_echo :
    let entropy : Entropy := { host := fun _ _ n => .ok (List.replicate n 7) }
    let script : List (Turn Unit) := [.call () (.sign [1]), .call () .keygen]
    let life (d : DebugLevel) (scheme : SchemeId) : Life Unit Unit :=
      ContextSettings.live { scheme, paramSet := 0, debugLevel := d } .echo script entropy
    (life .debug .sigHelloWorld).log.map LogRecord.level =
        [.info, .debug, .error, .info, .info] ∧
      (life .error .sigHelloWorld).log =
        (life .debug .sigHelloWorld).log.filter (·.level = .error) ∧
      (life .none .sigHelloWorld).log = [] ∧
      (life .error .kemKyber).course.map (fun _ => ()) =
        .error (.config (.lookup (.schemeUnavailable .kemKyber))) ∧
      (life .error .kemKyber).log = (life .debug .kemKyber).log := by
  intro entropy script life
  have hsets : ∀ turn ∈ script, turn.setsVerbosity = false := by
    intro turn hturn
    rcases List.mem_cons.mp hturn with rfl | hturn
    · rfl
    · obtain rfl := List.mem_singleton.mp hturn
      rfl
  obtain ⟨-, -, herror, -⟩ := verbosity_only_filters_the_log
    { scheme := .sigHelloWorld, paramSet := 0 } .echo hsets entropy .error
  obtain ⟨-, -, -, hnone⟩ := verbosity_only_filters_the_log
    { scheme := .sigHelloWorld, paramSet := 0 } .echo hsets entropy .none
  refine ⟨rfl, ?_, hnone rfl, rfl, rfl⟩
  refine herror.trans (List.filter_congr ?_)
  intro record _
  cases record.level <;> rfl

end ContextSettings

end LatticeSuite
