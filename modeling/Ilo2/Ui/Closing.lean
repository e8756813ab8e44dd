import Ilo2.Media.Shutdown
import Ilo2.Ui.Confirm

/-!
# Closing the window

Closing stops the server, and the firmware reads the image as long as it is inserted.  The guard
looks at the URL in the snapshot.

* `guarded` - **while an image is inserted the window closes only after the answer**, or after
  `--screenshot`, but for the moment before the snapshot has the URL.
* `unguarded_midway` - and in that moment it closes.
* `closed_down` - **when `main` returns** no thread is left, the server is stopped, and nothing is
  inserted.

The first and the last are about runs in which an eject takes effect, if an image is inserted.
-/

namespace Ilo2.Ui.Window

open Media (LeftInserted Noted)
open Machine (ite_some)

def Event.out? (e : Event) : Option Media.Out :=
  e.media?.bind fun
    | .out o => some o
    | .queue _ | .turn _ => none

/-- What the media worker does to the world outside, and the calls of `stop`. -/
def mediaOuts (tr : List Event) : List Media.Out := tr.filterMap Event.out?

/-- What is asked of a step: no eject fails while an image is inserted. -/
def EjectsTake (s : Window) (a : Action) : Prop :=
  ∀ w, (a = .media (.finish w) ∧ s.media.worker = .busy .eject) ∨ a = .media (.last w) →
    s.media.ilo.inserted ≠ none → w.takes .ejectVirtualMedia = true

variable {s s' : Window} {a : Action} {c : Call} {out tr : List Event} {opt : Options}
  {m m' : Media.Panel} {b : Media.Action} {o : List Media.Out}

instance (s : Window) (a : Action) : Decidable (EjectsTake s a) :=
  match a with
  | .media (.finish w) =>
      decidable_of_iff (s.media.worker = .busy .eject → s.media.ilo.inserted ≠ none →
          w.takes .ejectVirtualMedia = true) (by simp [EjectsTake])
  | .media (.last w) =>
      decidable_of_iff (s.media.ilo.inserted ≠ none → w.takes .ejectVirtualMedia = true)
        (by simp [EjectsTake])
  | .media (.push _) | .media (.begin _) | .media .take | .media (.insert _) | .media (.poll _)
  | .media .stop | .media .leave | .media .join => .isTrue (by simp [EjectsTake])
  | .draw | .connect _ _ | .disconnect | .forward _ | .refresh | .ctrlAltDel | .powerTab _ _
  | .mediaTab _ _ _ | .requestClose | .guard _ | .screenshot | .call | .core _ | .power _ =>
      .isTrue (by simp [EjectsTake])

/-! ### The panel -/

theorem report_outs (m : Media.Panel) (b : Media.Action) (m' : Media.Panel)
    (o : List Media.Out) : mediaOuts ((Media.Panel.report m b m' o).map .media) = o := by
  unfold mediaOuts Media.Panel.report
  rw [List.map_append, List.filterMap_append, List.map_map,
    Trace.filterMap_map_some (f := Event.out?) (g := Event.media ∘ Media.Panel.Event.out)
      fun _ => rfl]
  cases b with
  | take | finish w =>
      dsimp only
      rw [List.map_map, Trace.filterMap_map_none fun _ => rfl, List.nil_append]
  | push j | begin w | insert w | poll w | stop | leave | last w | join => rfl

/-- The iLO hears what is sent, as about some image. -/
theorem panel_hears (h : m.step b = some (m', o)) : ∃ iso, m'.ilo = m.ilo.hearAll iso o := by
  cases Media.Panel.step_does h with
  | called calm worker caller => exact ⟨[], calm.ilo⟩
  | asked calm asks worker worker' whole whole' caller =>
      exact ⟨[], calm.ilo.trans (Media.Panel.hearAll_asks asks).symm⟩
  | finished j w worker => exact ⟨j.iso, rfl⟩
  | inserted iso url w worker offer takes => exact ⟨iso, rfl⟩
  | noted iso url w worker url_eq takes => exact ⟨iso, rfl⟩
  | left worker | ended w worker | joined worker => exact ⟨[], rfl⟩

/-- A worker that is done stays so. -/
theorem panel_done (h : m.step b = some (m', o)) (hdone : m.worker = .done) :
    m'.worker = .done ∧
      (m.ctl.server.running = false → m'.ctl.server.running = false) := by
  cases Media.Panel.step_does h with
  | called calm worker caller => exact ⟨worker.trans hdone, fun hs => calm.server ▸ hs⟩
  | asked calm asks worker worker' whole whole' caller => exact absurd hdone worker.ne_done
  | finished j w worker | inserted iso url w worker offer takes
  | noted iso url w worker url_eq takes | left worker | ended w worker =>
      rw [hdone] at worker
      cases worker
  | joined worker => exact ⟨hdone, fun _ => rfl⟩

/-- Every image that is inserted is noted, or is about to be; none is inserted when the worker
is done. -/
structure Minded (m : Media.Panel) : Prop where
  noted : m.worker ≠ .done → ¬ m.worker.Midway → Noted m
  midway : ∀ iso url, m.worker = .inserted iso url → url ≠ []
  done : m.worker = .done → m.ilo.inserted = none

theorem Minded.of_done (hw : m.worker = .done) (hilo : m.ilo.inserted = none) : Minded m := by
  refine ⟨fun hne => absurd hw hne, fun iso url hi => ?_, fun _ => hilo⟩
  rw [hw] at hi
  cases hi

/-- The end of the worker ejects what is noted. -/
theorem finish_ejects (hnoted : Noted m) (w : Media.World)
    (htake : m.ilo.inserted ≠ none → w.takes .ejectVirtualMedia = true) :
    (m.ilo.hearAll [] (m.ctl.finish w).2).inserted = none := by
  obtain ⟨-, hout⟩ := m.ctl.finish_spec w
  rw [hout]
  by_cases hins : m.ilo.inserted = none
  · split
    · cases w.takes .ejectVirtualMedia with
      | true => rfl
      | false => simpa using hins
    · simpa using hins
  · rw [if_pos (hnoted hins), htake hins]
    rfl

theorem Minded.step (h : Minded m) (hstep : m.step b = some (m', o))
    (htake : ∀ w, (b = .finish w ∧ m.worker = .busy .eject) ∨ b = .last w →
      m.ilo.inserted ≠ none → w.takes .ejectVirtualMedia = true) : Minded m' := by
  cases Media.Panel.step_does hstep with
  | called calm worker caller =>
      refine ⟨fun hw hm => ?_, fun iso url hi => h.midway iso url (worker ▸ hi), fun hw => ?_⟩
      · exact (h.noted (worker ▸ hw) (worker ▸ hm)).of_eq (congrArg _ calm.ilo) calm.url
      · rw [calm.ilo]
        exact h.done (worker ▸ hw)
  | asked calm asks worker worker' whole whole' caller =>
      refine ⟨fun _ _ => ?_, fun iso url hi => absurd (hi ▸ trivial) whole',
        fun hw => absurd hw worker'.ne_done⟩
      exact (h.noted worker.ne_done whole).of_eq (congrArg _ calm.ilo) calm.url
  | finished j w worker =>
      refine ⟨fun _ _ => ?_, nofun, nofun⟩
      have hnoted := h.noted (worker ▸ nofun) (worker ▸ id)
      exact Media.job_noted hnoted j fun hj hins => htake w (Or.inl ⟨rfl, hj ▸ worker⟩) hins
  | inserted iso url w worker offer takes =>
      obtain ⟨-, -, server, host, hhost, -, -, hurl, -⟩ := m.ctl.offer_spec offer
      refine ⟨fun _ hm => absurd trivial hm, fun iso' url' hi => ?_, nofun⟩
      cases hi
      exact hurl ▸ Media.MediaControl.url_ne hhost
  | noted iso url w worker url_eq takes =>
      exact ⟨fun _ _ => Media.note_noted (h.midway iso url worker), nofun, nofun⟩
  | left worker =>
      refine ⟨fun _ _ => ?_, nofun, nofun⟩
      exact (h.noted (worker ▸ nofun) (worker ▸ id)).of_eq rfl rfl
  | ended w worker =>
      refine ⟨fun hw => absurd rfl hw, nofun, fun _ => ?_⟩
      exact finish_ejects (h.noted (worker ▸ nofun) (worker ▸ id)) w (htake w (Or.inr rfl))
  | joined worker =>
      refine ⟨fun hw => absurd worker hw, fun iso url hi => ?_, fun _ => h.done worker⟩
      rw [show m.worker = .inserted iso url from hi] at worker
      cases worker

/-! ### What a step does to the panel -/

/-- The panel makes a step, or is started, or is not there and is stopped once more. -/
inductive Moves (s : Window) (a : Action) (s' : Window) (out : List Event) : Prop
  | still (media : s'.media = s.media) (up : s'.mediaUp = s.mediaUp) (outs : mediaOuts out = [])
  | stepped (b : Media.Action) (o : List Media.Out) (step : s.media.step b = some (s'.media, o))
      (own : ofMediaWorker b = true → a = .media b) (outs : mediaOuts out = o)
      (up : s'.mediaUp = s.mediaUp ∨ s.media.worker = .done)
  | started (worker : s.media.worker = .done) (worker' : s'.media.worker = .starting)
      (ilo : s'.media.ilo = s.media.ilo) (up : s'.mediaUp = true) (outs : mediaOuts out = [])
  | absent (down : s.mediaUp = false) (down' : s'.mediaUp = false)
      (worker : s'.media.worker = s.media.worker) (ilo : s'.media.ilo = s.media.ilo)
      (outs : mediaOuts out = [] ∨ mediaOuts out = [.stopServer])

theorem mediaOuts_core (l : List Out) : mediaOuts (l.map .core) = [] :=
  Trace.filterMap_map_none (fun _ => rfl) l

theorem mediaOuts_power (l : List PowerControl.Event) : mediaOuts (l.map .power) = [] :=
  Trace.filterMap_map_none (fun _ => rfl) l

theorem draws_moves (h : Draws s s' out) : Moves s a s' out := by
  cases h with
  | draw | refuse err | replay size worker | disconnect side | input calls
  | guard closeRequested guardUp popup | leave r closeRequested guardUp popup url =>
      exact .still rfl rfl rfl
  | connect login cfg worker host => exact .still rfl rfl (mediaOuts_core _)
  | powerTab now click up => exact .still rfl rfl (Trace.filterMap_map_none (fun _ => rfl) _)
  | mediaTab path now click up => exact .still rfl rfl (Trace.filterMap_map_none (fun _ => rfl) _)

theorem call_moves (h : s.call c = some (s', out)) : Moves s .call s' out := by
  cases c with
  | coreStop | coreDisconnect | coreJoin | input i =>
      obtain ⟨core, o, -, rfl, rfl⟩ := coreStep_some h
      exact .still rfl rfl (mediaOuts_core _)
  | powerStop | request cmd =>
      obtain ⟨p, o, -, rfl, rfl⟩ := powerStep_some h
      exact .still rfl rfl (mediaOuts_power _)
  | powerJoin =>
      obtain ⟨-, h⟩ := ite_some h
      cases h
      exact .still rfl rfl rfl
  | powerStart cfg =>
      obtain ⟨⟨s₁, out₁⟩, hstep, h⟩ := Option.map_eq_some_iff.mp h
      obtain ⟨p, o, -, rfl, rfl⟩ := powerStep_some hstep
      cases h
      exact .still rfl rfl rfl
  | mediaStop =>
      dsimp only [call] at h
      split at h
      · obtain ⟨m, o, hstep, rfl, rfl⟩ := mediaStep_some h
        exact .stepped .stop o hstep nofun (report_outs _ _ _ _) (Or.inl rfl)
      · rename_i hdown
        cases h
        have hdown := eq_false_of_ne_true hdown
        exact .absent hdown hdown rfl rfl (Or.inl rfl)
  | mediaJoin =>
      dsimp only [call] at h
      split at h
      · obtain ⟨m, o, hstep, rfl, rfl⟩ := mediaStep_some h
        obtain ⟨⟨-, hdone⟩, -⟩ := ite_some hstep
        exact .stepped .join o hstep nofun (report_outs _ _ _ _) (Or.inr hdone)
      · rename_i hdown
        cases h
        have hdown := eq_false_of_ne_true hdown
        exact .absent hdown hdown rfl rfl (Or.inr rfl)
  | mediaStart cfg =>
      obtain ⟨hdone, rfl, rfl⟩ := mediaStart_some h
      exact .started hdone rfl rfl rfl rfl
  | push j =>
      obtain ⟨m, o, hstep, rfl, rfl⟩ := mediaStep_some h
      exact .stepped (.push j) o hstep nofun (report_outs _ _ _ _) (Or.inl rfl)
  | disarm =>
      cases h
      exact .still rfl rfl rfl

theorem Moves.of_todo {todo : List Call} (h : Moves { s with todo := todo } a s' out) :
    Moves s a s' out := by
  cases h with
  | still media up outs => exact .still media up outs
  | stepped b o step own outs up => exact .stepped b o step own outs up
  | started worker worker' ilo up outs => exact .started worker worker' ilo up outs
  | absent down down' worker ilo outs => exact .absent down down' worker ilo outs

theorem step_moves (h : Does s a s' out) : Moves s a s' out := by
  cases h with
  | widget todo quit draws => exact draws_moves draws
  | called c todo eq call => exact (call_moves call).of_todo
  | core a step => exact .still rfl rfl (mediaOuts_core _)
  | power a worker step => exact .still rfl rfl (mediaOuts_power _)
  | media a worker step => exact .stepped a _ step (fun _ => rfl) (report_outs _ _ _ _) (Or.inl rfl)

/-! ### The media in a run -/

/-- What is inserted is told by the trace, and is noted; a panel that is not there is done. -/
structure Kept (tr : List Event) (s : Window) : Prop where
  left : LeftInserted (mediaOuts tr) ↔ s.media.ilo.inserted ≠ none
  minded : Minded s.media
  down : s.mediaUp = false → s.media.worker = .done

theorem Kept.step (h : Kept tr s) (htake : EjectsTake s a) (hmoves : Moves s a s' out) :
    Kept (tr ++ out) s' := by
  have happend : mediaOuts (tr ++ out) = mediaOuts tr ++ mediaOuts out := List.filterMap_append
  obtain ⟨hleft, hminded, hdown⟩ := h
  cases hmoves with
  | still media up outs =>
      rw [← media] at hleft hminded hdown
      exact ⟨by rw [happend, outs, List.append_nil]; exact hleft, hminded, up ▸ hdown⟩
  | stepped b o step own outs up =>
      obtain ⟨iso, hears⟩ := panel_hears step
      refine ⟨?_, ?_, fun hdown' => ?_⟩
      · rw [happend, outs, hears]
        exact Media.leftInserted_hearAll hleft iso o
      · refine hminded.step step fun w hb => htake w ?_
        rcases hb with ⟨rfl, hbusy⟩ | rfl
        · exact Or.inl ⟨own rfl, hbusy⟩
        · exact Or.inr (own rfl)
      · refine (panel_done step ?_).1
        rcases up with hsame | hdone
        · exact hdown (hsame ▸ hdown')
        · exact hdone
  | started worker worker' ilo up outs =>
      refine ⟨?_, ⟨fun _ _ hins => ?_, fun iso url hi => ?_, fun hw => ?_⟩, fun hdown' => ?_⟩
      · rw [happend, outs, List.append_nil, ilo]
        exact hleft
      · rw [ilo, hminded.done worker] at hins
        exact absurd rfl hins
      · rw [worker'] at hi
        cases hi
      · rw [worker'] at hw
        cases hw
      · rw [up] at hdown'
        cases hdown'
  | absent down down' worker ilo outs =>
      have hdone := hdown down
      refine ⟨?_, .of_done (worker.trans hdone) ?_, fun _ => worker.trans hdone⟩
      · rw [happend, ilo]
        rcases outs with houts | houts
        · rw [houts, List.append_nil]
          exact hleft
        · rw [houts]
          exact Media.leftInserted_hearAll hleft [] [.stopServer]
      · rw [ilo]
        exact hminded.done hdone

theorem kept_of_run (h : (machine opt).Run EjectsTake tr s) : Kept tr s := by
  have hstart : Kept [] (machine opt).start :=
    ⟨iff_of_false Media.not_leftInserted_nil (not_not.mpr rfl), .of_done rfl rfl, fun _ => rfl⟩
  exact Machine.Run.inv Kept hstart
    (fun _ _ _ _ _ ih htake hstep => ih.step htake (step_moves (step_does hstep))) h

/-- **The guard.**  In every run in which no eject fails while an image is inserted: a step that
leaves the loop says why, and while an image is inserted it is not because there was nothing to
guard, unless the iLO has only just taken it and the mount is not over. -/
theorem guarded (h : (machine opt).Run EjectsTake tr s) (hstep : s.step a = some (s', out))
    (hquit : s.quit = false) (hquit' : s'.quit = true) :
    ∃ r, out = [.left r] ∧
      (LeftInserted (mediaOuts tr) → r = .unguarded → s.media.worker.Midway) := by
  have hkept := kept_of_run h
  have hstay (hsame : s'.quit = s.quit) : False := by
    rw [hsame, hquit] at hquit'
    cases hquit'
  cases step_does hstep with
  | called c todo eq call => exact absurd (call_keeps call).quit hstay
  | core a step | power a worker step | media a worker step => exact absurd rfl hstay
  | widget todo quit draws =>
      cases draws with
      | leave r closeRequested guardUp popup url =>
          refine ⟨r, rfl, fun hins hr => ?_⟩
          have hinserted := hkept.left.mp hins
          by_cases hworker : s.media.worker = .done
          · exact absurd (hkept.minded.done hworker) hinserted
          · have hup : s.mediaUp = true := by
              by_contra hdown
              exact hworker (hkept.down (eq_false_of_ne_true hdown))
            by_contra hwhole
            exact hkept.minded.noted hworker hwhole hinserted (url hr hup)
      | draw | refuse err | replay size worker | connect login cfg worker host | disconnect side
      | input calls | powerTab now click up | mediaTab path now click up
      | guard closeRequested guardUp popup => exact absurd rfl hstay

/-- A mount that is taken in hand. -/
def mounting : List Action :=
  connecting ++ [.media (.begin (.refusing [])), .mediaTab [0x62] 0 { mount := true }, .call,
    .media .take]

/-- A mount, and a close that the guard holds. -/
def heldClose : List Action :=
  mounting ++ [.media (.finish (.refusing [])), .requestClose, .guard none]

theorem guarded_mount : ∃ tr s s' out r, (machine {}).Run EjectsTake tr s ∧
    s.media.ilo.inserted ≠ none ∧ s.step (.guard (some .ejectAndClose)) = some (s', out) ∧
    out = [.left r] ∧ (LeftInserted (mediaOuts tr) → r = .unguarded → s.media.worker.Midway) := by
  have hexec : ((machine {}).exec EjectsTake (machine {}).start heldClose).map
      (fun r => (r.1.quit, r.1.media.ilo.inserted.isSome,
        (r.1.step (.guard (some .ejectAndClose))).map fun r => r.1.quit)) =
          some (false, true, some true) := by
    decide
  obtain ⟨⟨s, tr⟩, hexec, hobs⟩ := Option.map_eq_some_iff.mp hexec
  simp only [Prod.mk.injEq] at hobs
  obtain ⟨hquit, hins, hstep⟩ := hobs
  obtain ⟨⟨s', out⟩, hstep, hquit'⟩ := Option.map_eq_some_iff.mp hstep
  have hrun := Machine.run_of_exec hexec
  obtain ⟨r, hout, hr⟩ := guarded hrun hstep hquit hquit'
  refine ⟨tr, s, s', out, r, hrun, ?_, hstep, hout, hr⟩
  exact Option.isSome_iff_ne_none.mp hins

/-- **The gap of the guard**: while the reply to an insert is waited for, the window closes
unguarded. -/
theorem unguarded_midway : ∃ tr s s', (machine {}).Run EjectsTake tr s ∧
    s.media.ilo.inserted ≠ none ∧ s.step (.guard none) = some (s', [.left .unguarded]) := by
  have hexec : ((machine {}).exec EjectsTake (machine {}).start
      (mounting ++ [.media (.insert (.refusing [])), .requestClose])).map
        (fun r => (r.1.media.ilo.inserted.isSome, r.1.media.ctl.snap.url,
          (r.1.todo, r.1.quit, r.1.closeRequested, r.1.guardUp))) =
      some (true, [], ([], false, true, false)) := by
    decide
  obtain ⟨⟨s, tr⟩, hexec, hobs⟩ := Option.map_eq_some_iff.mp hexec
  simp only [Prod.mk.injEq] at hobs
  obtain ⟨hins, hurl, htodo, hquit, hclose, hguard⟩ := hobs
  refine ⟨tr, s, (leave { s with closeRequested := false } .unguarded).1,
    Machine.run_of_exec hexec, Option.isSome_iff_ne_none.mp hins, ?_⟩
  dsimp only [step, widget, guard]
  rw [if_pos ⟨htodo, hquit⟩, if_pos ⟨hclose, hguard, by rw [hurl, ite_self]⟩]
  rfl

/-! ### The end -/

/-- After the loop: what is not over is still to be joined. -/
structure Ends (s : Window) : Prop where
  todo : s.todo <:+ onQuit
  core : .coreJoin ∈ s.todo ∨ s.core.worker = .none
  power : .powerJoin ∈ s.todo ∨ s.powerUp = false
  media : .mediaJoin ∈ s.todo ∨ (s.mediaUp = false ∧ s.media.ctl.server.running = false)

theorem mem_rest {c' : Call} {todo : List Call} (h : c' ∈ c :: todo) (hne : c' ≠ c) : c' ∈ todo :=
  (List.mem_cons.mp h).resolve_left hne

/-- A join takes the thread away, and a call of the end brings none back. -/
theorem call_core (h : s.call c = some (s', out)) (hc : c.ofSession = false)
    (hcore : c = .coreJoin ∨ s.core.worker = .none) : s'.core.worker = .none := by
  by_cases hof : c.ofCore = false
  · rw [(call_keeps h).core hof]
    refine hcore.resolve_left ?_
    rintro rfl
    cases hof
  cases c with
  | coreJoin =>
      obtain ⟨core, o, hstep, rfl, -⟩ := coreFront_some h
      obtain ⟨-, hstep⟩ := ite_some hstep
      cases hstep
      rfl
  | coreStop | coreDisconnect =>
      obtain ⟨core, o, hstep, rfl, -⟩ := coreFront_some h
      obtain ⟨-, hstep⟩ := ite_some hstep
      cases hstep
      exact hcore.resolve_left nofun
  | input i => cases hc
  | _ => exact absurd rfl hof

/-- The same for the media control, whose server is stopped with it. -/
theorem call_media (h : s.call c = some (s', out)) (hc : c ∈ onQuit)
    (hmedia : c = .mediaJoin ∨ (s.mediaUp = false ∧ s.media.ctl.server.running = false)) :
    s'.mediaUp = false ∧ s'.media.ctl.server.running = false := by
  cases c with
  | mediaJoin =>
      dsimp only [call] at h
      split at h
      · obtain ⟨m, o, hstep, rfl, -⟩ := mediaStep_some h
        obtain ⟨-, hstep⟩ := ite_some hstep
        cases hstep
        exact ⟨rfl, rfl⟩
      · rename_i hup
        cases h
        exact ⟨eq_false_of_ne_true hup, rfl⟩
  | mediaStop =>
      obtain ⟨hup, hserver⟩ := hmedia.resolve_left nofun
      dsimp only [call] at h
      split at h
      · rename_i hup'
        rw [hup] at hup'
        cases hup'
      · cases h
        exact ⟨hup, hserver⟩
  | coreStop | coreDisconnect | coreJoin =>
      obtain ⟨core, o, -, rfl, -⟩ := coreStep_some h
      exact hmedia.resolve_left nofun
  | powerStop =>
      obtain ⟨p, o, -, rfl, -⟩ := powerStep_some h
      exact hmedia.resolve_left nofun
  | powerJoin =>
      obtain ⟨-, h⟩ := ite_some h
      cases h
      exact hmedia.resolve_left nofun
  | input i | powerStart cfg | request cmd | mediaStart cfg | push j | disarm =>
      simp [onQuit, stopCore, stopPower, stopMedia] at hc

theorem Ends.called {todo : List Call} (h : Ends s) (htodo : s.todo = c :: todo)
    (hcall : { s with todo := todo }.call c = some (s', out)) : Ends s' := by
  obtain ⟨hscript, hcore, hpower, hmedia⟩ := h
  rw [htodo] at hscript hcore hpower hmedia
  have hkeeps := call_keeps hcall
  have htail : s'.todo = todo := hkeeps.todo
  have hc := mem_of_suffix hscript
  have hall : ∀ c ∈ onQuit, c.starts = false ∧ c.ofSession = false := by decide
  obtain ⟨hstarts, hsession⟩ := hall c hc
  refine ⟨htail ▸ (List.suffix_cons c todo).trans hscript, ?_, ?_, ?_⟩
  · rw [htail]
    by_cases hmem : Call.coreJoin ∈ todo
    · exact Or.inl hmem
    · refine Or.inr (call_core hcall hsession ?_)
      rcases hcore with hcore | hcore
      · by_contra hnot
        exact hmem (mem_rest hcore fun heq => hnot (Or.inl heq.symm))
      · exact Or.inr hcore
  · rw [htail]
    by_cases hup : s'.powerUp = true
    · obtain ⟨hup, hne⟩ := hkeeps.powerUp hstarts hup
      rcases hpower with hpower | hpower
      · exact Or.inl (mem_rest hpower hne.symm)
      · rw [show s.powerUp = true from hup] at hpower
        cases hpower
    · exact Or.inr (eq_false_of_ne_true hup)
  · rw [htail]
    by_cases hmem : Call.mediaJoin ∈ todo
    · exact Or.inl hmem
    · refine Or.inr (call_media hcall hc ?_)
      rcases hmedia with hmedia | hmedia
      · by_contra hnot
        exact hmem (mem_rest hmedia fun heq => hnot (Or.inl heq.symm))
      · exact Or.inr hmedia

/-- A thread that is not there is over; and after the loop the threads are joined. -/
structure Tidy (s : Window) : Prop where
  power : s.powerUp = false → s.power.worker = .done
  ends : s.quit = true → Ends s

theorem worker_absent {core : ConsoleCore} (h : core.worker = .none) (b : WorkerAction) :
    core.workerStep b = none := by
  cases b <;> simp [ConsoleCore.workerStep, h]

/-- The worker of the power control does not come back. -/
theorem powerWorker_over {p p' : PowerControl} {b : PowerControl.Action} {o : List Empty}
    (hb : ofPowerWorker b = true) (hstep : p.step b = some (p', o)) : p.worker ≠ .done := by
  intro hdone
  cases b with
  | start cfg | stop | request cmd => cases hb
  | enter now now' | wake now now' | finish r => simp [PowerControl.step, hdone] at hstep

theorem call_power (h : s.call c = some (s', out))
    (hover : s.powerUp = false → s.power.worker = .done) (hdown : s'.powerUp = false) :
    s'.power.worker = .done := by
  cases c with
  | powerStop | request cmd =>
      obtain ⟨p, o, hstep, rfl, -⟩ := powerStep_some h
      cases hstep
      exact hover hdown
  | powerJoin =>
      obtain ⟨hjoin, h⟩ := ite_some h
      cases h
      exact hjoin.elim hover id
  | powerStart cfg =>
      obtain ⟨⟨s₁, out₁⟩, hstep, h⟩ := Option.map_eq_some_iff.mp h
      obtain ⟨p, o, -, rfl, -⟩ := powerStep_some hstep
      cases h
      cases hdown
  | coreStop | coreDisconnect | coreJoin | input i =>
      obtain ⟨core, o, -, rfl, -⟩ := coreStep_some h
      exact hover hdown
  | mediaStop | mediaJoin =>
      dsimp only [call] at h
      split at h
      · obtain ⟨m, o, -, rfl, -⟩ := mediaStep_some h
        exact hover hdown
      · cases h
        exact hover hdown
  | mediaStart cfg =>
      obtain ⟨-, rfl, rfl⟩ := mediaStart_some h
      exact hover hdown
  | push j =>
      obtain ⟨m, o, -, rfl, -⟩ := mediaStep_some h
      exact hover hdown
  | disarm =>
      cases h
      exact hover hdown

theorem Tidy.widget (h : Tidy s) (hquit : s.quit = false) (hdraws : Draws s s' out) : Tidy s' := by
  have hstay : ¬ s.quit = true := by simp [hquit]
  cases hdraws with
  | leave r closeRequested guardUp popup url =>
      exact ⟨h.power, fun _ => ⟨List.suffix_refl _, Or.inl (by simp [onQuit, stopCore]),
        Or.inl (by simp [onQuit, stopPower]), Or.inl (by simp [onQuit, stopMedia])⟩⟩
  | draw | refuse err | replay size worker | connect login cfg worker host | disconnect side
  | input calls | powerTab now click up | mediaTab path now click up
  | guard closeRequested guardUp popup => exact ⟨h.power, fun hq => absurd hq hstay⟩

theorem Tidy.step (h : Tidy s) (hdown : s.mediaUp = false → s.media.worker = .done)
    (hdoes : Does s a s' out) : Tidy s' := by
  cases hdoes with
  | widget todo quit draws => exact h.widget quit draws
  | called c todo eq call =>
      refine ⟨call_power call h.power, fun hquit => ?_⟩
      exact (h.ends ((call_keeps call).quit.symm.trans hquit)).called eq call
  | core a step =>
      refine ⟨h.power, fun hquit => ?_⟩
      obtain ⟨htodo, hcore, hpower, hmedia⟩ := h.ends hquit
      refine ⟨htodo, hcore.imp_right fun hnone => ?_, hpower, hmedia⟩
      rw [worker_absent hnone] at step
      cases step
  | power a worker step =>
      refine ⟨fun hup => absurd (h.power hup) (powerWorker_over worker step), fun hquit => ?_⟩
      obtain ⟨htodo, hcore, hpower, hmedia⟩ := h.ends hquit
      exact ⟨htodo, hcore, hpower, hmedia⟩
  | media a worker step =>
      refine ⟨h.power, fun hquit => ?_⟩
      obtain ⟨htodo, hcore, hpower, hmedia⟩ := h.ends hquit
      refine ⟨htodo, hcore, hpower, hmedia.imp_right fun hoff => ⟨hoff.1, ?_⟩⟩
      exact (panel_done step (hdown hoff.1)).2 hoff.2

/-- **Closing.**  In every run in which no eject fails while an image is inserted: when `main`
returns, the three threads are over, the server is stopped, and nothing is inserted. -/
theorem closed_down (h : (machine opt).Run EjectsTake tr s) (hquit : s.quit = true)
    (htodo : s.todo = []) :
    s.core.worker = .none ∧ s.power.worker = .done ∧ s.media.worker = .done ∧
      s.media.ctl.server.running = false ∧ ¬ LeftInserted (mediaOuts tr) := by
  have hstart : Kept [] (machine opt).start ∧ Tidy (machine opt).start :=
    ⟨kept_of_run .start, fun _ => rfl, nofun⟩
  have hinv : Kept tr s ∧ Tidy s := by
    refine Machine.Run.inv (fun tr s => Kept tr s ∧ Tidy s) hstart ?_ h
    intro tr s a out s' ih htake hstep
    have hdoes := step_does hstep
    exact ⟨ih.1.step htake (step_moves hdoes), ih.2.step ih.1.down hdoes⟩
  obtain ⟨hkept, htidy⟩ := hinv
  obtain ⟨-, hcore, hpower, hmedia⟩ := htidy.ends hquit
  rw [htodo] at hcore hpower hmedia
  obtain ⟨hup, hserver⟩ := hmedia.resolve_left List.not_mem_nil
  have hdone := hkept.down hup
  refine ⟨hcore.resolve_left List.not_mem_nil, htidy.power (hpower.resolve_left List.not_mem_nil),
    hdone, hserver, fun hins => ?_⟩
  exact hkept.left.mp hins (hkept.minded.done hdone)

/-- The answer, and what follows the loop. -/
def closing : List Action :=
  heldClose ++ [.guard (some .ejectAndClose), .call, .call, .core (.acquired false), .call, .call,
    .media .leave, .media (.last (.refusing [])), .call, .call, .call, .call, .power (.enter 0 0),
    .call, .call, .call, .call]

theorem closed_down_mount : ∃ tr s, (machine {}).Run EjectsTake tr s ∧ s.core.worker = .none ∧
    s.power.worker = .done ∧ s.media.worker = .done ∧ s.media.ctl.server.running = false ∧
    ¬ LeftInserted (mediaOuts tr) := by
  have hexec : ((machine {}).exec EjectsTake (machine {}).start closing).map
      (fun r => (r.1.quit, r.1.todo)) = some (true, []) := by
    decide
  obtain ⟨⟨s, tr⟩, hexec, hobs⟩ := Option.map_eq_some_iff.mp hexec
  simp only [Prod.mk.injEq] at hobs
  obtain ⟨hquit, htodo⟩ := hobs
  have hrun := Machine.run_of_exec hexec
  exact ⟨tr, s, hrun, closed_down hrun hquit htodo⟩

end Ilo2.Ui.Window
