import Ilo2.Ui.Window

/-!
# Where the front end is

What the front end still has to call is the rest of a script, of a connect, a disconnect or the
end, or a few calls of a session.

* `call_keeps` - what a call leaves alone.
* `Phase.step` - without a console thread there is no power control, no media control and no
  armed button, as soon as a script is over.
-/

namespace Ilo2.Ui.Window

open Machine (ite_some)

variable {s s' : Window} {a : Action} {out : List Event}

/-! ### The calls, one after the other -/

/-- The calls that a widget of a session makes. -/
def Call.ofSession : Call → Bool
  | .input _ | .request _ | .push _ => true
  | _ => false

def Call.ofCore : Call → Bool
  | .coreStop | .coreDisconnect | .coreJoin | .input _ => true
  | _ => false

def Call.starts : Call → Bool
  | .powerStart _ | .mediaStart _ => true
  | _ => false

/-- What a call leaves alone. -/
structure Keeps (s : Window) (c : Call) (s' : Window) : Prop where
  todo : s'.todo = s.todo
  quit : s'.quit = s.quit
  side : s'.side = s.side
  core : c.ofCore = false → s'.core = s.core
  worker : c.ofSession = true →
    s'.core.worker = s.core.worker ∧ s'.core.state = s.core.state
  arm : c ≠ .disarm → s'.arm = s.arm ∧ s'.bootArm = s.bootArm
  disarm : c = .disarm → s'.arm.armed = false ∧ s'.bootArm.armed = false
  powerUp : c.starts = false → s'.powerUp = true → s.powerUp = true ∧ c ≠ .powerJoin
  mediaUp : c.starts = false → s'.mediaUp = true → s.mediaUp = true ∧ c ≠ .mediaJoin

variable {c : Call}

theorem queueLocked_worker (s : ConsoleCore) (bytes : List UInt8) :
    (s.queueLocked bytes).1.worker = s.worker ∧ (s.queueLocked bytes).1.state = s.state := by
  unfold ConsoleCore.queueLocked
  split_ifs <;> exact ⟨rfl, rfl⟩

theorem queueAll_worker (bs : List (List UInt8)) (s : ConsoleCore) :
    (s.queueAll bs).1.worker = s.worker ∧ (s.queueAll bs).1.state = s.state := by
  induction bs generalizing s with
  | nil => exact ⟨rfl, rfl⟩
  | cons b bs ih =>
      obtain ⟨hworker, hstate⟩ := queueLocked_worker s b
      obtain ⟨hworker', hstate'⟩ := ih (s.queueLocked b).1
      exact ⟨hworker'.trans hworker, hstate'.trans hstate⟩

/-- An input method leaves the worker and the state alone. -/
theorem call_worker (s : ConsoleCore) (c : InputCall) :
    (s.call c).1.worker = s.worker ∧ (s.call c).1.state = s.state := by
  cases c with
  | mouseMove x y => exact queueLocked_worker _ _
  | typeText t => exact queueAll_worker _ s
  | requestRefresh => exact ⟨rfl, rfl⟩
  | mouseButton button down | typeChar c | sendRaw bytes | sendCtrlAltDel =>
      exact queueLocked_worker s _

/-- A call of the core that is not a start. -/
theorem coreStep_keeps {b : FrontAction} (hcore : c.ofCore = true) (hc : c ≠ .disarm)
    (hpower : c ≠ .powerJoin) (hmedia : c ≠ .mediaJoin)
    (hworker : c.ofSession = true → ∃ i, b = .input i)
    (h : s.coreStep (.front b) = some (s', out)) : Keeps s c s' := by
  obtain ⟨core, o, hstep, rfl, -⟩ := coreStep_some h
  refine ⟨rfl, rfl, rfl, fun hno => ?_, fun hsession => ?_, fun _ => ⟨rfl, rfl⟩,
    fun hdis => absurd hdis hc, fun _ hup => ⟨hup, hpower⟩, fun _ hup => ⟨hup, hmedia⟩⟩
  · rw [hcore] at hno
    cases hno
  · obtain ⟨i, rfl⟩ := hworker hsession
    have hcall := call_worker s.core i
    rwa [show s.core.call i = (core, o) from Option.some.inj hstep] at hcall

theorem call_keeps (h : s.call c = some (s', out)) : Keeps s c s' := by
  cases c with
  | coreStop | coreDisconnect | coreJoin =>
      exact coreStep_keeps rfl nofun nofun nofun nofun h
  | input i => exact coreStep_keeps rfl nofun nofun nofun (fun _ => ⟨i, rfl⟩) h
  | powerStop =>
      obtain ⟨p, o, -, rfl, -⟩ := powerStep_some h
      exact ⟨rfl, rfl, rfl, fun _ => rfl, nofun, fun _ => ⟨rfl, rfl⟩, nofun,
        fun _ hup => ⟨hup, nofun⟩, fun _ hup => ⟨hup, nofun⟩⟩
  | request cmd =>
      obtain ⟨p, o, -, rfl, -⟩ := powerStep_some h
      exact ⟨rfl, rfl, rfl, fun _ => rfl, fun _ => ⟨rfl, rfl⟩, fun _ => ⟨rfl, rfl⟩, nofun,
        fun _ hup => ⟨hup, nofun⟩, fun _ hup => ⟨hup, nofun⟩⟩
  | powerJoin =>
      obtain ⟨-, h⟩ := ite_some h
      cases h
      exact ⟨rfl, rfl, rfl, fun _ => rfl, nofun, fun _ => ⟨rfl, rfl⟩, nofun, nofun,
        fun _ hup => ⟨hup, nofun⟩⟩
  | powerStart cfg =>
      obtain ⟨⟨s₁, out₁⟩, hstep, h⟩ := Option.map_eq_some_iff.mp h
      obtain ⟨p, o, -, rfl, -⟩ := powerStep_some hstep
      cases h
      exact ⟨rfl, rfl, rfl, fun _ => rfl, nofun, fun _ => ⟨rfl, rfl⟩, nofun, nofun, nofun⟩
  | mediaStop =>
      dsimp only [call] at h
      split at h
      · obtain ⟨m, o, -, rfl, -⟩ := mediaStep_some h
        exact ⟨rfl, rfl, rfl, fun _ => rfl, nofun, fun _ => ⟨rfl, rfl⟩, nofun,
          fun _ hup => ⟨hup, nofun⟩, fun _ hup => ⟨hup, nofun⟩⟩
      · cases h
        exact ⟨rfl, rfl, rfl, fun _ => rfl, nofun, fun _ => ⟨rfl, rfl⟩, nofun,
          fun _ hup => ⟨hup, nofun⟩, fun _ hup => ⟨hup, nofun⟩⟩
  | mediaJoin =>
      dsimp only [call] at h
      split at h
      · obtain ⟨m, o, -, rfl, -⟩ := mediaStep_some h
        exact ⟨rfl, rfl, rfl, fun _ => rfl, nofun, fun _ => ⟨rfl, rfl⟩, nofun,
          fun _ hup => ⟨hup, nofun⟩, nofun⟩
      · rename_i hdown
        cases h
        exact ⟨rfl, rfl, rfl, fun _ => rfl, nofun, fun _ => ⟨rfl, rfl⟩, nofun,
          fun _ hup => ⟨hup, nofun⟩, fun _ hup => absurd hup hdown⟩
  | mediaStart cfg =>
      obtain ⟨-, rfl, rfl⟩ := mediaStart_some h
      exact ⟨rfl, rfl, rfl, fun _ => rfl, nofun, fun _ => ⟨rfl, rfl⟩, nofun, nofun, nofun⟩
  | push j =>
      obtain ⟨m, o, -, rfl, -⟩ := mediaStep_some h
      exact ⟨rfl, rfl, rfl, fun _ => rfl, fun _ => ⟨rfl, rfl⟩, fun _ => ⟨rfl, rfl⟩, nofun,
        fun _ hup => ⟨hup, nofun⟩, fun _ hup => ⟨hup, nofun⟩⟩
  | disarm =>
      cases h
      exact ⟨rfl, rfl, rfl, fun _ => rfl, nofun, fun h => absurd rfl h, fun _ => ⟨rfl, rfl⟩,
        fun _ hup => ⟨hup, nofun⟩, fun _ hup => ⟨hup, nofun⟩⟩

/-! ### Where the front end is -/

/-- There is no power control, no media control, and nothing is armed. -/
structure Down (s : Window) : Prop where
  power : s.powerUp = false
  media : s.mediaUp = false
  arm : s.arm.armed = false
  bootArm : s.bootArm.armed = false

theorem Down.of_eq (h : s.Down) (hpower : s'.powerUp = s.powerUp) (hmedia : s'.mediaUp = s.mediaUp)
    (harm : s'.arm = s.arm) (hboot : s'.bootArm = s.bootArm) : s'.Down :=
  ⟨hpower ▸ h.power, hmedia ▸ h.media, harm ▸ h.arm, hboot ▸ h.bootArm⟩

/-- What is left to call is the rest of a script, or what a widget of a session asked for.
Without a console nothing else is up. -/
inductive Phase (s : Window) : Prop
  | session (todo : ∀ c ∈ s.todo, c.ofSession = true) (down : s.core.worker = .none → s.Down)
  | connecting (login : Login) (todo : s.todo <:+ onConnect login) (worker : s.core.worker ≠ .none)
      (arm : s.arm.armed = false) (bootArm : s.bootArm.armed = false)
  | disconnecting (todo : s.todo <:+ onDisconnect) (power : s.powerUp = true → .powerJoin ∈ s.todo)
      (media : s.mediaUp = true → .mediaJoin ∈ s.todo)
      (arm : .disarm ∈ s.todo ∨ (s.arm.armed = false ∧ s.bootArm.armed = false))
  | leaving (todo : s.todo <:+ onQuit) (quit : s.quit = true)

theorem Phase.start (opt : Options) : Phase (machine opt).start :=
  .session nofun fun _ => ⟨rfl, rfl, rfl, rfl⟩

/-- Between two widgets. -/
theorem Phase.down (h : Phase s) (htodo : s.todo = []) (hquit : s.quit = false)
    (hworker : s.core.worker = .none) : s.Down := by
  cases h with
  | session todo down => exact down hworker
  | connecting login todo worker arm bootArm => exact absurd hworker worker
  | disconnecting todo power media arm =>
      rw [htodo] at power media arm
      obtain ⟨harm, hboot⟩ := arm.resolve_left List.not_mem_nil
      exact ⟨by simpa using power, by simpa using media, harm, hboot⟩
  | leaving todo quit =>
      rw [hquit] at quit
      cases quit

theorem start_worker {core : ConsoleCore} {cfg : Config} (hhost : cfg.host ≠ "") :
    (core.start cfg).1.worker ≠ .none := by
  unfold ConsoleCore.start
  by_cases hw : core.worker ≠ .none
  · rw [if_pos hw]
    exact hw
  · rw [if_neg hw, if_neg hhost]
    exact nofun

theorem startReplay_worker (core : ConsoleCore) (size : Nat) (rate : Int) :
    (core.startReplay (some size) rate).worker ≠ .none := by
  unfold ConsoleCore.startReplay
  by_cases hw : core.worker ≠ .none
  · rw [if_pos hw]
    exact hw
  · rw [if_neg hw]
    exact nofun

theorem Phase.widget (h : Phase s) (htodo : s.todo = []) (hquit : s.quit = false)
    (hdraws : Draws s s' out) : Phase s' := by
  have hdown := h.down htodo hquit
  have hnone : ∀ c ∈ s.todo, c.ofSession = true := by simp [htodo]
  cases hdraws with
  | draw | refuse err | guard closeRequested guardUp popup =>
      exact .session hnone fun hw => (hdown hw).of_eq rfl rfl rfl rfl
  | replay size worker =>
      exact .session hnone fun hw => absurd hw (startReplay_worker s.core size 200000)
  | connect login cfg worker host =>
      have hdown := hdown worker
      exact .connecting login (List.suffix_refl _) (start_worker host) hdown.arm hdown.bootArm
  | disconnect side =>
      exact .disconnecting (List.suffix_refl _) (fun _ => by simp [onDisconnect, stopPower])
        (fun _ => by simp [onDisconnect, stopMedia]) (Or.inl (by simp [onDisconnect]))
  | input calls =>
      exact .session (by simp [Call.ofSession]) fun hw => (hdown hw).of_eq rfl rfl rfl rfl
  | powerTab now click up =>
      refine .session (by simp [Call.ofSession]) fun hw => ?_
      rw [(hdown hw).power] at up
      cases up
  | mediaTab path now click up =>
      refine .session (by simp [Call.ofSession]) fun hw => ?_
      rw [(hdown hw).media] at up
      cases up
  | leave r closeRequested guardUp popup url => exact .leaving (List.suffix_refl _) rfl

theorem mem_of_suffix {c : Call} {todo script : List Call} (h : c :: todo <:+ script) :
    c ∈ script :=
  h.subset List.mem_cons_self

theorem Phase.called {todo : List Call} (h : Phase s) (htodo : s.todo = c :: todo)
    (hkeeps : Keeps { s with todo := todo } c s') : Phase s' := by
  have htail : s'.todo = todo := hkeeps.todo
  cases h with
  | session htodo' down =>
      rw [htodo] at htodo'
      have hc : c.ofSession = true := htodo' c List.mem_cons_self
      have hstarts : c.starts = false := by
        cases c <;> simp [Call.starts, Call.ofSession] at hc ⊢
      have hdisarm : c ≠ .disarm := by
        rintro rfl
        cases hc
      refine .session (fun c' hc' => htodo' c' (List.mem_cons_of_mem _ (htail ▸ hc'))) fun hw => ?_
      have hdown := down ((hkeeps.worker hc).1.symm.trans hw)
      obtain ⟨harm, hboot⟩ := hkeeps.arm hdisarm
      refine ⟨?_, ?_, harm ▸ hdown.arm, hboot ▸ hdown.bootArm⟩
      · by_contra hup
        exact Bool.false_ne_true
          (hdown.power.symm.trans (hkeeps.powerUp hstarts (Bool.not_eq_false _ ▸ hup)).1)
      · by_contra hup
        exact Bool.false_ne_true
          (hdown.media.symm.trans (hkeeps.mediaUp hstarts (Bool.not_eq_false _ ▸ hup)).1)
  | connecting login htodo' worker arm bootArm =>
      rw [htodo] at htodo'
      have hc := mem_of_suffix htodo'
      have hcore : c.ofCore = false ∧ c ≠ .disarm := by
        simp only [onConnect, stopPower, stopMedia, List.cons_append, List.nil_append,
          List.mem_cons, List.not_mem_nil, or_false] at hc
        rcases hc with rfl | rfl | rfl | rfl | rfl | rfl
        all_goals exact ⟨rfl, nofun⟩
      obtain ⟨harm, hboot⟩ := hkeeps.arm hcore.2
      refine .connecting login (htail ▸ (List.suffix_cons c todo).trans htodo') ?_ (harm ▸ arm)
        (hboot ▸ bootArm)
      rw [hkeeps.core hcore.1]
      exact worker
  | disconnecting htodo' power media arm =>
      rw [htodo] at htodo' power media arm
      have hstarts : c.starts = false := by
        have hall : ∀ c ∈ onDisconnect, c.starts = false := by decide
        exact hall c (mem_of_suffix htodo')
      refine .disconnecting (htail ▸ (List.suffix_cons c todo).trans htodo') ?_ ?_ ?_
      · intro hup
        obtain ⟨hup, hc⟩ := hkeeps.powerUp hstarts hup
        exact htail ▸ (List.mem_cons.mp (power hup)).resolve_left hc.symm
      · intro hup
        obtain ⟨hup, hc⟩ := hkeeps.mediaUp hstarts hup
        exact htail ▸ (List.mem_cons.mp (media hup)).resolve_left hc.symm
      · by_cases hc : c = .disarm
        · exact Or.inr (hkeeps.disarm hc)
        · obtain ⟨harm, hboot⟩ := hkeeps.arm hc
          rcases arm with hmem | hoff
          · exact Or.inl (htail ▸ (List.mem_cons.mp hmem).resolve_left (Ne.symm hc))
          · exact Or.inr (by rw [harm, hboot]; exact hoff)
  | leaving htodo' quit =>
      rw [htodo] at htodo'
      exact .leaving (htail ▸ (List.suffix_cons c todo).trans htodo') (hkeeps.quit.trans quit)

/-- A worker's step leaves the front end alone. -/
theorem Phase.worker (h : Phase s) (htodo : s'.todo = s.todo) (hquit : s'.quit = s.quit)
    (hcore : s'.core.worker = .none → s.core.worker = .none) (hpower : s'.powerUp = s.powerUp)
    (hmedia : s'.mediaUp = s.mediaUp) (harm : s'.arm = s.arm) (hboot : s'.bootArm = s.bootArm) :
    Phase s' := by
  cases h with
  | session todo down =>
      exact .session (htodo ▸ todo) fun hw => (down (hcore hw)).of_eq hpower hmedia harm hboot
  | connecting login todo worker arm bootArm =>
      exact .connecting login (htodo ▸ todo) (fun hw => worker (hcore hw)) (harm ▸ arm)
        (hboot ▸ bootArm)
  | disconnecting todo power media arm =>
      exact .disconnecting (htodo ▸ todo) (by rw [hpower, htodo]; exact power)
        (by rw [hmedia, htodo]; exact media) (by rw [htodo, harm, hboot]; exact arm)
  | leaving todo quit => exact .leaving (htodo ▸ todo) (hquit.trans quit)

/-- The worker of the console does not end its own thread. -/
theorem workerStep_ne {core core' : ConsoleCore} {b : WorkerAction} {o : List Out}
    (h : core.workerStep b = some (core', o)) : core'.worker ≠ .none := by
  cases b with
  | acquired ok =>
      obtain ⟨-, h⟩ := ite_some h
      cases h
      cases ok <;> exact nofun
  | connected ok =>
      dsimp only [ConsoleCore.workerStep] at h
      split_ifs at h <;> cases h <;> exact nofun
  | test =>
      dsimp only [ConsoleCore.workerStep] at h
      split at h
      · cases h
        dsimp only
        split <;> exact nofun
      · cases h
  | received r =>
      dsimp only [ConsoleCore.workerStep] at h
      split_ifs at h
      cases r <;> cases h <;> exact nofun
  | replay fbW fbH =>
      dsimp only [ConsoleCore.workerStep] at h
      split at h
      · split_ifs at h <;> cases h <;> exact nofun
      · cases h
  | setConnected | swap | leave | finish =>
      obtain ⟨-, h⟩ := ite_some h
      cases h
      exact nofun
  | publish | enter | transmit | pumped due | replayStart =>
      dsimp only [ConsoleCore.workerStep] at h
      split at h
      · cases h
        exact nofun
      · cases h

theorem Phase.step (h : Phase s) (hdoes : Does s a s' out) : Phase s' := by
  cases hdoes with
  | widget todo quit draws => exact h.widget todo quit draws
  | called c todo eq call => exact h.called eq (call_keeps call)
  | core a step => exact h.worker rfl rfl (fun hw => absurd hw (workerStep_ne step)) rfl rfl rfl rfl
  | power a worker step | media a worker step => exact h.worker rfl rfl id rfl rfl rfl rfl

/-- What is started is started with nothing armed. -/
theorem Phase.starting {todo : List Call} (h : Phase s) (htodo : s.todo = c :: todo)
    (hc : c.starts = true) :
    s.arm.armed = false ∧ s.bootArm.armed = false ∧ ∀ c' ∈ todo, c'.ofSession = false := by
  cases h with
  | session htodo' down =>
      have hsession := htodo' c (htodo ▸ List.mem_cons_self)
      cases c <;> simp [Call.starts, Call.ofSession] at hc hsession
  | connecting login htodo' worker arm bootArm =>
      rw [htodo] at htodo'
      refine ⟨arm, bootArm, fun c' hc' => ?_⟩
      have hmem := htodo'.subset (List.mem_cons_of_mem _ hc')
      simp only [onConnect, stopPower, stopMedia, List.cons_append, List.nil_append, List.mem_cons,
        List.not_mem_nil, or_false] at hmem
      rcases hmem with rfl | rfl | rfl | rfl | rfl | rfl
      all_goals rfl
  | disconnecting htodo' power media arm =>
      have hall : ∀ c ∈ onDisconnect, c.starts = false := by decide
      rw [hall c (mem_of_suffix (htodo ▸ htodo'))] at hc
      cases hc
  | leaving htodo' quit =>
      have hall : ∀ c ∈ onQuit, c.starts = false := by decide
      rw [hall c (mem_of_suffix (htodo ▸ htodo'))] at hc
      cases hc

end Ilo2.Ui.Window
