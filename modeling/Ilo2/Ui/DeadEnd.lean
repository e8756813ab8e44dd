import Ilo2.Ui.Outbox
import Ilo2.Ui.Phases

/-!
# A session that ends by itself

`start` refuses while there is a thread to join, and only `do_disconnect` joins it.  Its button
is drawn only while the session is up.

* `dead_end` - **when a session has ended by itself no other can be started**: not after a login
  that failed, nor after the connection was lost.
-/

namespace Ilo2.Ui.Window

open Machine (ite_some)

variable {s s' : Window} {a : Action} {out tr : List Event} {opt : Options}

/-! ### The state of a thread that has ended -/

/-- A console whose thread has ended shows the login. -/
def Settled (core : ConsoleCore) : Prop := core.worker = .done → isIdle core.state = true

theorem workerStep_settled {core core' : ConsoleCore} {b : WorkerAction} {o : List Out}
    (h : core.workerStep b = some (core', o)) : Settled core' := by
  cases b with
  | acquired ok =>
      obtain ⟨-, h⟩ := ite_some h
      cases h
      cases ok with
      | true => exact nofun
      | false => exact fun _ => rfl
  | connected ok =>
      dsimp only [ConsoleCore.workerStep] at h
      split_ifs at h
      · cases h
        exact nofun
      · cases h
        exact fun _ => rfl
  | finish =>
      obtain ⟨-, h⟩ := ite_some h
      cases h
      intro _
      unfold ConsoleCore.finish
      by_cases hfailed : core.state = .failed
      · simp [hfailed, isIdle]
      · simp [hfailed, isIdle]
  | replay fbW fbH =>
      dsimp only [ConsoleCore.workerStep] at h
      split at h
      · split_ifs at h
        · cases h
          exact nofun
        · cases h
          exact fun _ => rfl
      · cases h
  | test =>
      dsimp only [ConsoleCore.workerStep] at h
      split at h
      · cases h
        intro hdone
        dsimp only at hdone
        split at hdone
        · cases hdone
        · cases hdone
      · cases h
  | received r =>
      dsimp only [ConsoleCore.workerStep] at h
      split_ifs at h
      cases r <;> cases h <;> exact nofun
  | setConnected | swap | leave =>
      obtain ⟨-, h⟩ := ite_some h
      cases h
      exact nofun
  | publish | enter | transmit | pumped due | replayStart =>
      dsimp only [ConsoleCore.workerStep] at h
      split at h
      · cases h
        exact nofun
      · cases h

theorem Settled.of_eq {core core' : ConsoleCore} (h : Settled core)
    (hworker : core'.worker = core.worker) (hstate : core'.state = core.state) : Settled core' :=
  fun hdone => hstate ▸ h (hworker ▸ hdone)

theorem start_settled {core : ConsoleCore} (h : Settled core) (cfg : Config) :
    Settled (core.start cfg).1 := by
  unfold ConsoleCore.start
  split_ifs
  · exact h
  · exact h.of_eq rfl rfl
  · exact nofun

theorem startReplay_settled {core : ConsoleCore} (h : Settled core) (file : Option Nat)
    (rate : Int) : Settled (core.startReplay file rate) := by
  unfold ConsoleCore.startReplay
  by_cases hw : core.worker ≠ .none
  · rw [if_pos hw]
    exact h
  · rw [if_neg hw]
    cases file with
    | none => exact h
    | some size => exact nofun

theorem Settled.front {core core' : ConsoleCore} {b : FrontAction} {o : List Out}
    (h : Settled core) (hstep : core.frontStep b = some (core', o)) : Settled core' := by
  cases b with
  | start cfg =>
      obtain ⟨-, hstep⟩ := ite_some hstep
      have hstart := start_settled h cfg
      rwa [hstep] at hstart
  | startReplay file rate =>
      obtain ⟨-, hstep⟩ := ite_some hstep
      cases hstep
      exact startReplay_settled h file rate
  | stop | disconnect =>
      obtain ⟨-, hstep⟩ := ite_some hstep
      cases hstep
      exact h.of_eq rfl rfl
  | join =>
      obtain ⟨-, hstep⟩ := ite_some hstep
      cases hstep
      exact nofun
  | input i =>
      obtain ⟨hworker, hstate⟩ := call_worker core i
      rw [show core.call i = (core', o) from Option.some.inj hstep] at hworker hstate
      exact h.of_eq hworker hstate

theorem settled_called {c : Call} (h : Settled s.core) (hcall : s.call c = some (s', out)) :
    Settled s'.core := by
  by_cases hcore : c.ofCore = true
  · cases c with
    | coreStop | coreDisconnect | coreJoin | input i =>
        obtain ⟨core, o, hstep, rfl, -⟩ := coreFront_some hcall
        exact h.front hstep
    | _ => cases hcore
  · rw [(call_keeps hcall).core (eq_false_of_ne_true hcore)]
    exact h

theorem settled_step (h : Settled s.core) (hdoes : Does s a s' out) : Settled s'.core := by
  cases hdoes with
  | widget todo quit draws =>
      cases draws with
      | replay size worker => exact startReplay_settled h (some size) 200000
      | connect login cfg worker host => exact start_settled h cfg
      | draw | refuse err | disconnect side | input calls | powerTab now click up
      | mediaTab path now click up | guard closeRequested guardUp popup
      | leave r closeRequested guardUp popup url => exact h
  | called c todo eq call => exact settled_called (s := { s with todo := todo }) h call
  | core a step => exact workerStep_settled step
  | power a worker step | media a worker step => exact h

theorem settled_of_run {allow : Window → Action → Prop} (h : (machine opt).Run allow tr s) :
    Settled s.core :=
  Machine.Run.inv (fun _ s => Settled s.core) (fun hdone => by cases hdone)
    (fun _ _ _ _ _ ih _ hstep => settled_step ih (step_does hstep)) h

/-! ### The dead end -/

/-- The events of a session that begins, or of a power or media control that does. -/
def Event.begins : Event → Bool
  | .core (.started _) | .replaying | .power .opened | .media (.queue .opened) => true
  | _ => false

/-- The session is over and the login is drawn; or the loop has been left. -/
inductive Over (s : Window) : Prop
  | login (worker : s.core.worker = .done) (state : isIdle s.core.state = true)
      (side : s.side = .idle) (todo : ∀ c ∈ s.todo, c.ofSession = true)
  | leaving (quit : s.quit = true) (todo : s.todo <:+ onQuit)

/-- A thread that has ended does nothing. -/
theorem worker_ended {core : ConsoleCore} (h : core.worker = .done) (b : WorkerAction) :
    core.workerStep b = none := by
  cases b <;> simp [ConsoleCore.workerStep, h]

theorem core_begins {o : List Out} (h : ∀ host, .started host ∉ o) :
    ∀ e ∈ o.map Event.core, e.begins = false := by
  intro e he
  obtain ⟨o', ho', rfl⟩ := List.mem_map.mp he
  cases o' with
  | started host => exact absurd ho' (h host)
  | offered bytes held | transmit bytes | refreshScreen | selectMouse bytes => rfl

theorem media_begins (m : Media.Panel) (b : Media.Action) (m' : Media.Panel)
    (o : List Media.Out) :
    ∀ e ∈ (Media.Panel.report m b m' o).map Event.media, e.begins = false := by
  intro e he
  obtain ⟨e', he', rfl⟩ := List.mem_map.mp he
  have hopened := Media.Panel.report_isOpened m b m' o e' he'
  cases e' with
  | queue q =>
      cases q with
      | opened => cases hopened
      | closed | asked j | begun j => rfl
  | turn t | out o' => rfl

/-- A call that is not a start begins nothing. -/
theorem call_begins {c : Call} (hstarts : c.starts = false) (h : s.call c = some (s', out)) :
    ∀ e ∈ out, e.begins = false := by
  cases c with
  | powerStart cfg | mediaStart cfg => cases hstarts
  | coreStop | coreDisconnect | coreJoin =>
      obtain ⟨core, o, hstep, -, rfl⟩ := coreFront_some h
      obtain ⟨-, hstep⟩ := ite_some hstep
      cases hstep
      exact List.forall_mem_nil _
  | input i =>
      obtain ⟨core, o, hstep, -, rfl⟩ := coreFront_some h
      have hinput := (ConsoleCore.call_conserves s.core i).silent
      rw [show s.core.call i = (core, o) from Option.some.inj hstep] at hinput
      exact core_begins hinput
  | powerStop | request cmd =>
      obtain ⟨p, o, -, -, rfl⟩ := powerStep_some h
      simp [PowerControl.report, Event.begins]
  | powerJoin =>
      obtain ⟨-, h⟩ := ite_some h
      cases h
      exact List.forall_mem_nil _
  | mediaStop | mediaJoin =>
      dsimp only [call] at h
      split at h
      · obtain ⟨m, o, -, -, rfl⟩ := mediaStep_some h
        exact media_begins _ _ _ _
      · cases h
        simp [Event.begins]
  | push j =>
      obtain ⟨m, o, -, -, rfl⟩ := mediaStep_some h
      exact media_begins _ _ _ _
  | disarm =>
      cases h
      simp [Event.begins]

/-- Nor does the worker of the power control. -/
theorem powerWorker_begins {a : PowerControl.Action} (ha : ofPowerWorker a = true)
    (p p' : PowerControl) :
    ∀ e ∈ (PowerControl.report p a p').map Event.power, e.begins = false := by
  cases a with
  | start cfg | stop | request cmd => cases ha
  | enter now now' | wake now now' | finish r => simp [PowerControl.report, Event.begins]

theorem Over.widget (h : Over s) (hquit : s.quit = false)
    (hdraws : Draws s s' out) : Over s' ∧ ∀ e ∈ out, e.begins = false := by
  cases h with
  | leaving quit todo =>
      rw [hquit] at quit
      cases quit
  | login worker state side todo =>
      cases hdraws with
      | draw =>
          refine ⟨.login worker state ?_ todo, nofun⟩
          dsimp only
          rw [if_pos state]
      | refuse err => exact ⟨.login worker state side todo, by simp [Event.begins]⟩
      | replay size none | connect login cfg none host =>
          rw [worker] at none
          cases none
      | disconnect session =>
          rw [side] at session
          cases session
      | input calls => exact ⟨.login worker state side (by simp [Call.ofSession]), nofun⟩
      | powerTab now click up =>
          exact ⟨.login worker state side (by simp [Call.ofSession]), by simp [Event.begins]⟩
      | mediaTab path now click up =>
          exact ⟨.login worker state side (by simp [Call.ofSession]), by simp [Event.begins]⟩
      | guard closeRequested guardUp popup => exact ⟨.login worker state side todo, nofun⟩
      | leave r closeRequested guardUp popup url =>
          exact ⟨.leaving rfl (List.suffix_refl _), by simp [Event.begins]⟩

theorem Over.called {c : Call} {todo : List Call} (h : Over s) (htodo : s.todo = c :: todo)
    (hcall : { s with todo := todo }.call c = some (s', out)) :
    Over s' ∧ ∀ e ∈ out, e.begins = false := by
  have hkeeps := call_keeps hcall
  have htail : s'.todo = todo := hkeeps.todo
  cases h with
  | login worker state side todo' =>
      rw [htodo] at todo'
      have hc := todo' c List.mem_cons_self
      obtain ⟨hworker, hstate⟩ := hkeeps.worker hc
      refine ⟨.login (hworker.trans worker) ?_ (hkeeps.side.trans side) ?_, call_begins ?_ hcall⟩
      · rw [hstate]
        exact state
      · exact fun c' hc' => todo' c' (List.mem_cons_of_mem _ (htail ▸ hc'))
      · cases c <;> simp [Call.ofSession, Call.starts] at hc ⊢
  | leaving quit todo' =>
      rw [htodo] at todo'
      have hall : ∀ c ∈ onQuit, c.starts = false := by decide
      exact ⟨.leaving (hkeeps.quit.trans quit) (htail ▸ (List.suffix_cons c todo).trans todo'),
        call_begins (hall c (mem_of_suffix todo')) hcall⟩

/-- What is over stays over. -/
theorem Over.step (h : Over s) (hdoes : Does s a s' out) :
    Over s' ∧ ∀ e ∈ out, e.begins = false := by
  cases hdoes with
  | widget todo quit draws => exact h.widget quit draws
  | called c todo eq call => exact h.called eq call
  | core a step =>
      cases h with
      | login worker state side todo =>
          rw [worker_ended worker] at step
          cases step
      | leaving quit todo =>
          exact ⟨.leaving quit todo, core_begins (ConsoleCore.workerStep_conserves step).silent⟩
  | power a worker step =>
      refine ⟨?_, powerWorker_begins worker _ _⟩
      cases h with
      | login worker state side todo => exact .login worker state side todo
      | leaving quit todo => exact .leaving quit todo
  | media a worker step =>
      refine ⟨?_, media_begins _ _ _ _⟩
      cases h with
      | login worker state side todo => exact .login worker state side todo
      | leaving quit todo => exact .leaving quit todo

/-- A connect is refused while there is a thread to join. -/
theorem connect_refused (h : s.core.worker ≠ .none) (login : Login)
    (file : Except (List UInt8) Nat) : ∃ err, (s.connect login file).2 = [.refused err] := by
  unfold connect
  dsimp only
  rw [if_pos h, if_pos h]
  split_ifs
  · exact ⟨_, rfl⟩
  · exact ⟨_, rfl⟩
  · exact ⟨_, rfl⟩
  · exact ⟨_, rfl⟩

/-- From a state on. -/
def machineFrom (s : Window) : Machine Window Action Event := ⟨s, step⟩

/-- **A dead end.**  In any state of any run in which the thread of the console has ended, and
not because of a disconnect, and the login is drawn: whatever happens then, no session begins,
and no power or media control; and every connect is refused, as long as the loop goes on. -/
theorem dead_end {allow allow' : Window → Action → Prop} (h : (machine opt).Run allow tr s)
    (hdone : s.core.worker = .done) (hside : s.side = .idle) (htodo : s.todo = [])
    {tr' : List Event} (h' : (machineFrom s).Run allow' tr' s') :
    (∀ e ∈ tr', e.begins = false) ∧
    ∀ login file s'' out, s'.step (.connect login file) = some (s'', out) →
      ∃ err, out = [.refused err] := by
  have hover : Over s := .login hdone (settled_of_run h hdone) hside (by simp [htodo])
  have hinv : Over s' ∧ ∀ e ∈ tr', e.begins = false := by
    refine Machine.Run.inv (M := machineFrom s) (fun tr s => Over s ∧ ∀ e ∈ tr, e.begins = false)
      ⟨hover, nofun⟩ ?_ h'
    intro tr s a out s' ih _ hstep
    obtain ⟨hover, hout⟩ := ih.1.step (step_does hstep)
    refine ⟨hover, fun e he => ?_⟩
    rcases List.mem_append.mp he with he | he
    · exact ih.2 e he
    · exact hout e he
  refine ⟨hinv.2, fun login file s'' out hconnect => ?_⟩
  dsimp only [step] at hconnect
  split at hconnect
  · rename_i hidle
    obtain ⟨-, hconnect⟩ := ite_some hconnect
    have hrefused : s'.core.worker ≠ .none := by
      cases hinv.1 with
      | login worker state side todo =>
          rw [worker]
          exact nofun
      | leaving quit todo =>
          rw [hidle.2] at quit
          cases quit
    obtain ⟨err, herr⟩ := connect_refused hrefused login file
    rw [hconnect] at herr
    exact ⟨err, herr⟩
  · cases hconnect

/-- A login that fails, and the side column that shows it. -/
def failedLogin : List Action := connecting ++ [.core (.acquired false), .draw]

theorem dead_end_login : ∃ tr s, (machine {}).Run (fun _ _ => True) tr s ∧
    (s.step (.connect ⟨"a", [0x70]⟩ (.error []))).isSome = true ∧
    ∀ login file s' out, s.step (.connect login file) = some (s', out) →
      ∃ err, out = [.refused err] := by
  have hexec : ((machine {}).exec (fun _ _ => True) (machine {}).start failedLogin).map
      (fun r => (r.1.core.worker, r.1.side, r.1.todo,
        (r.1.step (.connect ⟨"a", [0x70]⟩ (.error []))).isSome)) =
          some (.done, .idle, [], true) := by
    decide
  obtain ⟨⟨s, tr⟩, hexec, hobs⟩ := Option.map_eq_some_iff.mp hexec
  simp only [Prod.mk.injEq] at hobs
  obtain ⟨hdone, hside, htodo, hsome⟩ := hobs
  have hrun := Machine.run_of_exec hexec
  have hstay : (machineFrom s).Run (fun _ _ => True) [] s := .start
  exact ⟨tr, s, hrun, hsome, (dead_end hrun hdone hside htodo hstay).2⟩

end Ilo2.Ui.Window
