import Ilo2.Lib.Trace
import Ilo2.Session.Clients
import Ilo2.Ui.ConsoleCore
import Ilo2.Ui.Screen

/-!
# Replays

`start_replay` and `replay_thread` of `console_core.hpp`, with the bytes of the file: the worker
decodes a chunk at a time, under the lock, while the front end pulls, and may stop it.  The machine
carries a `ConsoleCore`, whose steps it takes.

* `Plays` - what a step leaves as it is, and what it adds.
* `replay_exact` - **the picture is what the decoder paints of the bytes replayed**, those are the
  bytes of the file, and a pull shows the picture of its moment.
* `fits_of_file` - the replay of a file that the decoder takes meets what is asked of its steps.
* `replay_capture` - **the replay of a capture** shows the pictures of the capture tool.
-/

namespace Ilo2.Ui

open Dvc Checked

/-! ### The machine -/

/-- A console core that replays files, and the front end that pulls. -/
structure Replay where
  core : ConsoleCore := {}
  /-- `replay_`. -/
  file : List UInt8 := []
  /-- `pos` of the thread. -/
  pos : Nat := 0
  screen : Screen := {}
  status : String := ""
  /-- A fault of the decoder. -/
  fault : Option Fault := none

namespace Replay

inductive Out where
  /-- A file has been read, and its replay is to begin. -/
  | opened (file : List UInt8)
  /-- A chunk has been decoded. -/
  | decoded (bytes : List UInt8)
  /-- What `pull` returned, and the copy of the front end after it. -/
  | pulled (changed : Bool) (fb : Framebuffer)
  | stopped
  /-- The thread has ended. -/
  | ended
deriving DecidableEq

inductive Action where
  /-- The bytes of the file, if it could be read. -/
  | startReplay (file : Option (List UInt8)) (bytesPerSec : Int)
  /-- `stop`, in its three steps. -/
  | stop
  | disconnect
  | join
  /-- The first statement of the thread. -/
  | begins
  /-- The next round of its loop, or what follows it. -/
  | chunk
  | pull

/-- `start_replay`. -/
def startReplay (s : Replay) (file : Option (List UInt8)) (bytesPerSec : Int) :
    Option (Replay × List Out) := do
  let (core, _) ← s.core.frontStep (.startReplay (file.map List.length) bytesPerSec)
  match file with
  | some bytes =>
      if s.core.worker ≠ .none then some ({ s with core := core }, [])
      else some ({ s with core := core, file := bytes, pos := 0 }, [.opened bytes])
  | none => some ({ s with core := core }, [])

/-- The bytes of the next chunk. -/
def nextBytes (s : Replay) : List UInt8 :=
  match s.core.worker with
  | .replay left chunk => (s.file.drop s.pos).take (min chunk left)
  | _ => []

/-- A round of `replay_thread`: the next bytes of the file, as many as a chunk has, or the end. -/
def chunk (s : Replay) : Option (Replay × List Out) :=
  match s.core.worker with
  | .replay left chunk =>
      if s.core.running ∧ left > 0 then
        let n := min chunk left
        let bytes := (s.file.drop s.pos).take n
        match s.screen.run (bytes.map .byte) with
        | .error fault => some ({ s with fault := some fault }, [])
        | .ok screen => do
            let (core, _) ←
              s.core.workerStep (.replay screen.tracking.fb.fbW screen.tracking.fb.fbH)
            some ({ s with core := core, screen := screen, pos := s.pos + n }, [.decoded bytes])
      else do
        let (core, _) ← s.core.workerStep (.replay s.core.fbW s.core.fbH)
        some ({ s with core := core, status := "replay finished" }, [.ended])
  | _ => none

def step (s : Replay) : Action → Option (Replay × List Out)
  | .startReplay file bytesPerSec => s.startReplay file bytesPerSec
  | .stop => (s.core.frontStep .stop).map fun r => ({ s with core := r.1 }, [.stopped])
  | .disconnect => (s.core.frontStep .disconnect).map fun r => ({ s with core := r.1 }, [])
  | .join => (s.core.frontStep .join).map fun r => ({ s with core := r.1 }, [])
  | .begins => (s.core.workerStep .replayStart).map fun r => ({ s with core := r.1 }, [])
  | .chunk => s.chunk
  | .pull =>
      let (changed, t, f) := Ui.pull s.screen.tracking s.screen.front
      some ({ s with screen := { s.screen with tracking := t, front := f } },
        [.pulled changed f.fb])

def machine : Machine Replay Action Out := ⟨{}, step⟩

/-! ### What a trace says -/

def Out.isOpened : Out → Bool
  | .opened _ => true
  | _ => false

def Out.opened? : Out → Option (List UInt8)
  | .opened file => some file
  | _ => none

/-- The bytes that were decoded. -/
def Out.bytes : Out → List UInt8
  | .decoded bytes => bytes
  | _ => []

/-- What it did to the screen. -/
def Out.ops : Out → List Op
  | .decoded bytes => bytes.map .byte
  | .pulled _ _ => [.pull]
  | _ => []

def decoded (tr : List Out) : List UInt8 := tr.flatMap Out.bytes

def ops (tr : List Out) : List Op := tr.flatMap Out.ops

theorem bytes_map_byte (l : List UInt8) : Ui.bytes (l.map .byte) = l := by
  rw [Ui.bytes, List.filterMap_map]
  exact List.filterMap_some

theorem bytes_ops (tr : List Out) : Ui.bytes (ops tr) = decoded tr := by
  induction tr with
  | nil => rfl
  | cons e tr ih =>
      have hone : Ui.bytes e.ops = e.bytes := by
        cases e with
        | decoded bytes => exact bytes_map_byte bytes
        | opened file | pulled changed fb | stopped | ended => rfl
      rw [ops, List.flatMap_cons, Ui.bytes, List.filterMap_append]
      exact congrArg₂ (· ++ ·) hone ih

theorem decoded_append (tr tr' : List Out) : decoded (tr ++ tr') = decoded tr ++ decoded tr' :=
  List.flatMap_append

theorem ops_append (tr tr' : List Out) : ops (tr ++ tr') = ops tr ++ ops tr' :=
  List.flatMap_append

/-! ### What a step does -/

/-- What is asked of a step: the next chunk makes the decoder store no parameter past the end of
`cmd_p_buff`. -/
def Fits (s : Replay) : Action → Prop
  | .chunk => s.core.running = true → s.screen.decoder.StreamFits s.nextBytes
  | _ => True

variable {s s' : Replay} {a : Action} {tr out : List Out}

/-- What a step does to the worker and to the screen. -/
inductive Plays (s : Replay) : Replay → List Out → Prop
  | opened {core : ConsoleCore} {bytes : List UInt8} {chunk : Nat} :
      core.worker = .replayStart bytes.length chunk → core.running = true →
        Plays s { s with core := core, file := bytes, pos := 0 } [.opened bytes]
  | kept {core : ConsoleCore} : core.worker = s.core.worker → core.running = s.core.running →
      Plays s { s with core := core } []
  | stopped {core : ConsoleCore} : core.worker = s.core.worker →
      Plays s { s with core := core } [.stopped]
  | joined {core : ConsoleCore} : core.worker = .none → Plays s { s with core := core } []
  | begun {core : ConsoleCore} {size chunk : Nat} : s.core.worker = .replayStart size chunk →
      core.worker = .replay size chunk → core.running = s.core.running →
        Plays s { s with core := core } []
  | decoded {core : ConsoleCore} {left chunk : Nat} {screen : Screen} :
      s.core.worker = .replay left chunk → 0 < left →
      s.screen.run (((s.file.drop s.pos).take (min chunk left)).map .byte) = .ok screen →
      core.worker = .replay (left - min chunk left) chunk → core.running = s.core.running →
        Plays s { s with core := core, screen := screen, pos := s.pos + min chunk left }
          [.decoded ((s.file.drop s.pos).take (min chunk left))]
  | ended {core : ConsoleCore} {left chunk : Nat} {status : String} :
      s.core.worker = .replay left chunk → (s.core.running = true → left = 0) →
      core.worker = .done → Plays s { s with core := core, status := status } [.ended]
  | pulled : Plays s
      { s with screen := { s.screen with
          tracking := (Ui.pull s.screen.tracking s.screen.front).2.1
          front := (Ui.pull s.screen.tracking s.screen.front).2.2 } }
      [.pulled (Ui.pull s.screen.tracking s.screen.front).1
        (Ui.pull s.screen.tracking s.screen.front).2.2.fb]

theorem startReplay_plays {file : Option (List UInt8)} {rate : Int}
    (h : s.startReplay file rate = some (s', out)) : s.Plays s' out := by
  obtain ⟨⟨core, o⟩, hfront, h⟩ := Option.bind_eq_some_iff.mp h
  obtain ⟨-, hfront⟩ := Machine.ite_some hfront
  cases hfront
  dsimp only at h
  unfold ConsoleCore.startReplay at h
  by_cases hw : s.core.worker = .none
  · rw [if_neg (not_not.mpr hw)] at h
    cases file with
    | none =>
        cases h
        exact .kept rfl rfl
    | some bytes =>
        dsimp only [Option.map_some] at h
        rw [if_neg (not_not.mpr hw)] at h
        cases h
        exact .opened rfl rfl
  · rw [if_pos hw] at h
    cases file with
    | none =>
        cases h
        exact .kept rfl rfl
    | some bytes =>
        dsimp only at h
        rw [if_pos hw] at h
        cases h
        exact .kept rfl rfl

theorem chunk_plays (hinv : s.screen.Inv) (hfits : s.Fits .chunk)
    (h : s.chunk = some (s', out)) : s.Plays s' out := by
  rw [chunk] at h
  cases hw : s.core.worker with
  | replay left chunk =>
      rw [hw] at h
      dsimp only at h
      by_cases hgo : s.core.running = true ∧ left > 0
      · rw [if_pos hgo] at h
        have hnext : s.nextBytes = (s.file.drop s.pos).take (min chunk left) := by
          rw [nextBytes, hw]
        obtain ⟨d, ev, hfeed⟩ := feed_of_fits hinv.decoder (hfits hgo.1)
        rw [hnext, ← bytes_map_byte (List.take _ _)] at hfeed
        obtain ⟨screen, hrun⟩ := Screen.run_of_feed hfeed
        rw [hrun] at h
        dsimp only [ConsoleCore.workerStep] at h
        rw [hw] at h
        dsimp only at h
        rw [if_pos hgo] at h
        cases h
        exact .decoded hw hgo.2 hrun rfl rfl
      · rw [if_neg hgo] at h
        dsimp only [ConsoleCore.workerStep] at h
        rw [hw] at h
        dsimp only at h
        rw [if_neg hgo] at h
        cases h
        exact .ended hw (fun hr => by simpa [hr] using hgo) rfl
  | _ => rw [hw] at h; cases h

theorem step_plays (hinv : s.screen.Inv) (hfits : s.Fits a) (h : s.step a = some (s', out)) :
    s.Plays s' out := by
  cases a with
  | startReplay file rate => exact startReplay_plays h
  | chunk => exact chunk_plays hinv hfits h
  | pull =>
      cases h
      exact .pulled
  | stop =>
      obtain ⟨⟨core, o⟩, hfront, h⟩ := Option.map_eq_some_iff.mp h
      obtain ⟨-, hfront⟩ := Machine.ite_some hfront
      cases hfront
      cases h
      exact .stopped rfl
  | disconnect =>
      obtain ⟨⟨core, o⟩, hfront, h⟩ := Option.map_eq_some_iff.mp h
      obtain ⟨-, hfront⟩ := Machine.ite_some hfront
      cases hfront
      cases h
      exact .kept rfl rfl
  | join =>
      obtain ⟨⟨core, o⟩, hfront, h⟩ := Option.map_eq_some_iff.mp h
      obtain ⟨-, hfront⟩ := Machine.ite_some hfront
      cases hfront
      cases h
      exact .joined rfl
  | begins =>
      obtain ⟨⟨core, o⟩, hworker, h⟩ := Option.map_eq_some_iff.mp h
      cases hw : s.core.worker with
      | replayStart size chunk =>
          dsimp only [ConsoleCore.workerStep] at hworker
          rw [hw] at hworker
          cases hworker
          cases h
          exact .begun hw rfl rfl
      | _ =>
          dsimp only [ConsoleCore.workerStep] at hworker
          rw [hw] at hworker
          cases hworker

/-! ### The screen -/

/-- The screen has seen the bytes and the pulls of the trace, and a pull the screen of its
moment. -/
structure Shown (tr : List Out) (s : Replay) : Prop where
  sound : s.fault = none
  screen : Screen.run {} (ops tr) = .ok s.screen
  pulls : ∀ before changed fb after, tr = before ++ .pulled changed fb :: after →
    ∃ screen : Screen, Screen.run {} (ops before) = .ok screen ∧
      fb = (Ui.pull screen.tracking screen.front).2.2.fb

/-- An event that is no pull. -/
theorem Shown.push (h : Shown tr s) {e : Out} (hpull : ∀ changed fb, e ≠ .pulled changed fb)
    (hfault : s'.fault = s.fault) (hrun : s.screen.run e.ops = .ok s'.screen) :
    Shown (tr ++ [e]) s' where
  sound := hfault.trans h.sound
  screen := by
    rw [ops_append, Screen.run_append, h.screen, ok_bind]
    simpa [ops] using hrun
  pulls := by
    intro before changed fb after hsplit
    rcases Trace.split_concat hsplit with ⟨-, he, -⟩ | ⟨after', htr, -⟩
    · exact absurd he (hpull changed fb)
    · exact h.pulls before changed fb after' htr

/-- A step that shows nothing. -/
theorem Shown.keep (h : Shown tr s) (hfault : s'.fault = s.fault) (hscreen : s'.screen = s.screen) :
    Shown (tr ++ []) s' := by
  rw [List.append_nil]
  exact ⟨hfault.trans h.sound, by rw [hscreen]; exact h.screen, h.pulls⟩

theorem Shown.step (h : Shown tr s) (hplays : s.Plays s' out) : Shown (tr ++ out) s' := by
  cases hplays with
  | opened | stopped | ended => exact h.push (by rintro _ _ ⟨⟩) rfl rfl
  | kept | joined | begun => exact h.keep rfl rfl
  | decoded hw hleft hrun hcore hrunning => exact h.push (by rintro _ _ ⟨⟩) rfl hrun
  | pulled =>
      refine ⟨h.sound, ?_, ?_⟩
      · rw [ops_append, Screen.run_append, h.screen, ok_bind]
        rfl
      · intro before changed fb after hsplit
        rcases Trace.split_concat hsplit with ⟨rfl, he, -⟩ | ⟨after', htr, -⟩
        · cases he
          exact ⟨s.screen, h.screen, rfl⟩
        · exact h.pulls before changed fb after' htr

/-! ### The file -/

/-- What was replayed since the last file was opened. -/
def played (tr : List Out) : List Out := Trace.since Out.isOpened tr

/-- The replay has come to `pos`. -/
structure Placed (tr : List Out) (s : Replay) : Prop where
  file : (Trace.latest Out.opened? tr).getD [] = s.file
  taken : decoded (played tr) = s.file.take s.pos
  within : s.pos ≤ s.file.length
  starting : ∀ size chunk, s.core.worker = .replayStart size chunk →
    s.file.length = size ∧ s.pos = 0
  going : ∀ left chunk, s.core.worker = .replay left chunk → s.pos + left = s.file.length
  halted : ∀ size chunk, (s.core.worker = .replayStart size chunk ∨
    s.core.worker = .replay size chunk) → s.core.running = true ∨ .stopped ∈ played tr
  finished : ∀ before rest, played tr = before ++ .ended :: rest → .stopped ∉ before →
    s.pos = s.file.length

theorem Placed.start : Placed [] {} where
  file := rfl
  taken := rfl
  within := Nat.le_refl 0
  starting := by rintro size chunk ⟨⟩
  going := by rintro left chunk ⟨⟩
  halted := by rintro size chunk (⟨⟨⟩⟩ | ⟨⟨⟩⟩)
  finished := by
    intro before rest h
    exact absurd (congrArg List.length h) (by simp [played])

/-- One more event, which opens no file. -/
theorem played_concat {e : Out} (h : e.isOpened = false) :
    played (tr ++ [e]) = played tr ++ [e] := by
  rw [played, Trace.since_concat, h, if_neg Bool.false_ne_true]
  rfl

theorem latest_concat {e : Out} (h : e.opened? = none) :
    Trace.latest Out.opened? (tr ++ [e]) = Trace.latest Out.opened? tr := by
  rw [Trace.latest_concat, h, Option.none_or]

/-- A step that leaves the file and the position, and that decodes nothing. -/
theorem Placed.push (h : Placed tr s) {e : Out} (hopened : e.isOpened = false)
    (hopened? : e.opened? = none) (hbytes : e.bytes = []) (hended : e ≠ .ended)
    (hfile : s'.file = s.file) (hpos : s'.pos = s.pos) (hworker : s'.core.worker = s.core.worker)
    (hrunning : s'.core.running = s.core.running ∨ e = .stopped) : Placed (tr ++ [e]) s' where
  file := by rw [latest_concat hopened?, hfile]; exact h.file
  taken := by
    rw [played_concat hopened, decoded_append, hfile, hpos, h.taken]
    simp [decoded, hbytes]
  within := by rw [hfile, hpos]; exact h.within
  starting := by rw [hworker, hfile, hpos]; exact h.starting
  going := by rw [hworker, hfile, hpos]; exact h.going
  halted := by
    rw [hworker, played_concat hopened]
    intro size chunk hw
    rcases hrunning with hrunning | rfl
    · rw [hrunning]
      exact (h.halted size chunk hw).imp_right (List.mem_append_left _)
    · exact .inr (List.mem_append_right _ (List.mem_singleton_self _))
  finished := by
    intro before rest hsplit hstopped
    rw [played_concat hopened] at hsplit
    rcases Trace.split_concat hsplit with ⟨-, he, -⟩ | ⟨rest', hplayed, -⟩
    · exact absurd he hended
    · rw [hpos, hfile]
      exact h.finished before rest' hplayed hstopped

/-- A step of the worker or of `join`, without an event. -/
theorem Placed.keep (h : Placed tr s) (hfile : s'.file = s.file) (hpos : s'.pos = s.pos)
    (hstarting : ∀ size chunk, s'.core.worker = .replayStart size chunk →
      s.core.worker = .replayStart size chunk ∧ s'.core.running = s.core.running)
    (hgoing : ∀ left chunk, s'.core.worker = .replay left chunk →
      (s.core.worker = .replay left chunk ∨ s.core.worker = .replayStart left chunk) ∧
        s'.core.running = s.core.running) : Placed (tr ++ []) s' := by
  rw [List.append_nil]
  refine ⟨by rw [hfile]; exact h.file, by rw [hfile, hpos]; exact h.taken,
    by rw [hfile, hpos]; exact h.within, fun size chunk hw => ?_, fun left chunk hw => ?_,
    fun size chunk hw => ?_, by rw [hfile, hpos]; exact h.finished⟩
  · rw [hfile, hpos]
    exact h.starting size chunk (hstarting size chunk hw).1
  · rw [hfile, hpos]
    rcases (hgoing left chunk hw).1 with hw | hw
    · exact h.going left chunk hw
    · obtain ⟨hsize, hzero⟩ := h.starting left chunk hw
      omega
  · rcases hw with hw | hw
    · obtain ⟨hw, hrunning⟩ := hstarting size chunk hw
      rw [hrunning]
      exact h.halted size chunk (.inl hw)
    · obtain ⟨hw, hrunning⟩ := hgoing size chunk hw
      rw [hrunning]
      exact h.halted size chunk hw.symm

theorem Placed.step (h : Placed tr s) (hplays : s.Plays s' out) : Placed (tr ++ out) s' := by
  cases hplays with
  | kept hworker hrunning =>
      exact h.keep rfl rfl (fun size chunk hw => ⟨hworker ▸ hw, hrunning⟩)
        fun left chunk hw => ⟨.inl (hworker ▸ hw), hrunning⟩
  | joined hworker =>
      refine h.keep rfl rfl (fun size chunk hw => ?_) fun left chunk hw => ?_
      · cases hworker.symm.trans hw
      · cases hworker.symm.trans hw
  | begun hwas hworker hrunning =>
      refine h.keep rfl rfl (fun size chunk hw => ?_) fun left chunk hw => ⟨.inr ?_, hrunning⟩
      · cases hworker.symm.trans hw
      · cases hworker.symm.trans hw
        exact hwas
  | stopped hworker => exact h.push rfl rfl rfl (by rintro ⟨⟩) rfl rfl hworker (.inr rfl)
  | pulled => exact h.push rfl rfl rfl (by rintro ⟨⟩) rfl rfl rfl (.inl rfl)
  | @opened core bytes chunk hworker hrunning =>
      have hplayed : played (tr ++ [.opened bytes]) = [] := Trace.since_concat ..
      refine ⟨by rw [Trace.latest_concat]; rfl, by rw [hplayed]; rfl, Nat.zero_le _, ?_, ?_,
        fun _ _ _ => .inl hrunning, ?_⟩
      · intro size chunk hw
        cases hworker.symm.trans hw
        exact ⟨rfl, rfl⟩
      · intro left chunk hw
        cases hworker.symm.trans hw
      · intro before rest hsplit
        rw [hplayed] at hsplit
        exact absurd (congrArg List.length hsplit) (by simp)
  | @decoded core left chunk screen hw hleft hrun hworker hrunning =>
      have hplace := h.going left chunk hw
      have hlen : min chunk left ≤ left := Nat.min_le_right _ _
      have hplayed : played (tr ++ [.decoded ((s.file.drop s.pos).take (min chunk left))]) =
          played tr ++ [.decoded ((s.file.drop s.pos).take (min chunk left))] := played_concat rfl
      refine ⟨by rw [latest_concat rfl]; exact h.file, ?_, by dsimp only; omega, ?_, ?_, ?_, ?_⟩
      · rw [hplayed, decoded_append, h.taken]
        dsimp only
        rw [List.take_add]
        simp [decoded, Out.bytes]
      · intro size chunk' hw'
        cases hworker.symm.trans hw'
      · intro left' chunk' hw'
        cases hworker.symm.trans hw'
        dsimp only
        omega
      · intro size chunk' hw'
        dsimp only
        rw [hrunning, hplayed]
        exact (h.halted left chunk (.inr hw)).imp_right (List.mem_append_left _)
      · intro before rest hsplit hstopped
        rw [hplayed] at hsplit
        rcases Trace.split_concat hsplit with ⟨-, he, -⟩ | ⟨rest', hbefore, -⟩
        · cases he
        · -- The thread has not ended yet, so that nothing is left.
          have := h.finished before rest' hbefore hstopped
          omega
  | @ended core left chunk status hw hdone hworker =>
      have hplayed : played (tr ++ [.ended]) = played tr ++ [.ended] := played_concat rfl
      refine ⟨by rw [latest_concat rfl]; exact h.file, ?_, h.within, ?_, ?_, ?_, ?_⟩
      · rw [hplayed, decoded_append, h.taken]
        exact List.append_nil _
      · intro size chunk' hw'
        cases hworker.symm.trans hw'
      · intro left' chunk' hw'
        cases hworker.symm.trans hw'
      · rintro size chunk' (hw' | hw')
        · cases hworker.symm.trans hw'
        · cases hworker.symm.trans hw'
      · intro before rest hsplit hstopped
        rw [hplayed] at hsplit
        rcases Trace.split_concat hsplit with ⟨hbefore, -, -⟩ | ⟨rest', hbefore, -⟩
        · rcases h.halted left chunk (.inr hw) with hrunning | hmem
          · have hplace := h.going left chunk hw
            have hzero := hdone hrunning
            dsimp only
            omega
          · rw [hbefore] at hmem
            exact absurd hmem hstopped
        · exact h.finished before rest' hbefore hstopped

/-- Before a file is opened nothing is decoded. -/
def Blank (tr : List Out) : Prop :=
  ∀ before, before <+: tr → (∀ e ∈ before, e.isOpened = false) → decoded before = []

theorem Blank.start : Blank [] := by
  intro before hbefore _
  rw [List.prefix_nil.mp hbefore]
  rfl

theorem Blank.step (h : Blank tr) (hplaced : Placed tr s) (hplays : s.Plays s' out) :
    Blank (tr ++ out) := by
  -- An event that decodes something comes behind an opening.
  have hpush {e : Out} (he : (∀ e ∈ tr, e.isOpened = false) → e.bytes = []) :
      Blank (tr ++ [e]) := by
    intro before hbefore hclosed
    rcases List.prefix_concat_iff.mp hbefore with rfl | hbefore
    · have hall : ∀ e ∈ tr, e.isOpened = false := fun e he =>
        hclosed e (List.mem_append_left _ he)
      rw [decoded_append, h tr List.prefix_rfl hall]
      simpa [decoded] using he hall
    · exact h before hbefore hclosed
  cases hplays with
  | kept | joined | begun => rwa [List.append_nil]
  | opened | stopped | ended | pulled => exact hpush fun _ => rfl
  | @decoded core left chunk screen hw hleft hrun hworker hrunning =>
      refine hpush fun hall => ?_
      have hnone : Trace.latest Out.opened? tr = none := by
        rw [Trace.latest, List.findSome?_eq_none_iff]
        intro e he
        have hclosed := hall e (List.mem_reverse.mp he)
        cases e with
        | opened file => cases hclosed
        | _ => rfl
      have hfile := hplaced.file
      rw [hnone, Option.getD_none] at hfile
      rw [Out.bytes, ← hfile, List.drop_nil, List.take_nil]

/-! ### Runs -/

theorem Shown.inv (h : Shown tr s) : s.screen.Inv := (Screen.run_keeps .fresh h.screen).1

theorem inv_of_run (h : machine.Run Fits tr s) : Shown tr s ∧ Placed tr s ∧ Blank tr := by
  refine Machine.Run.inv (fun tr s => Shown tr s ∧ Placed tr s ∧ Blank tr)
    ⟨⟨rfl, rfl, by intro before changed fb after h; simp at h⟩, .start, .start⟩ ?_ h
  intro tr s a out s' ih hfits hstep
  have hplays := step_plays ih.1.inv hfits hstep
  exact ⟨ih.1.step hplays, ih.2.1.step hplays, ih.2.2.step ih.2.1 hplays⟩

/-- What a run of the screen shows is painted of its bytes. -/
theorem paint_of_run {screen : Screen} (h : Screen.run {} (ops tr) = .ok screen) :
    Ui.paint {} {} (decoded tr) = .ok screen.tracking.fb := by
  obtain ⟨-, ev, hfeed, hfb⟩ := Screen.run_keeps .fresh h
  rw [bytes_ops] at hfeed
  rw [paint_of_feed hfeed, hfb]

/-- What was replayed of the file that was opened last. -/
theorem Placed.decoded (h : Placed tr s) {before after : List Out} {file : List UInt8}
    (hsplit : tr = before ++ .opened file :: after) (hafter : ∀ e ∈ after, e.isOpened = false) :
    Replay.decoded after <+: file ∧ ∀ played rest, after = played ++ .ended :: rest →
      .stopped ∉ played → Replay.decoded after = file := by
  have hplayed : played tr = after := by
    rw [hsplit]
    exact Trace.since_split rfl hafter
  have hfile : s.file = file := by
    have hnone : ∀ e ∈ after, e.opened? = none := by
      intro e he
      have hclosed := hafter e he
      cases e with
      | opened file => cases hclosed
      | _ => rfl
    have hlatest : Trace.latest Out.opened? (before ++ .opened file :: after) = some file :=
      Trace.latest_split (f := Out.opened?) rfl hnone
    rw [← h.file, hsplit, hlatest, Option.getD_some]
  have htaken := h.taken
  rw [hplayed, hfile] at htaken
  refine ⟨htaken ▸ List.take_prefix _ _, fun played' rest hended hstopped => ?_⟩
  have hpos := h.finished played' rest (hplayed.trans hended) hstopped
  rw [htaken, hpos, hfile, List.take_length]

/-- **A replay is exact**, in every run in which no chunk makes the decoder store a parameter past
the end of `cmd_p_buff`: at every rate, with pulls and stops at any time, and with one file after
the other.  The decoder does not fail, and the picture is what the plain decoder paints of all the
bytes that were replayed.  After a pull the front end has the picture that the bytes before it
paint, once a resolution is known.  What was replayed of a file is a start of it, and all of it
when the thread has ended without a `stop`. -/
theorem replay_exact (h : machine.Run Fits tr s) :
    s.fault = none ∧ Ui.paint {} {} (decoded tr) = .ok s.screen.tracking.fb ∧
      (∀ before changed fb after, tr = before ++ .pulled changed fb :: after →
        ∃ shown, Ui.paint {} {} (decoded before) = .ok shown ∧
          ((shown.fbW, shown.fbH) ≠ (0, 0) → fb = shown)) ∧
      ∀ before file after, tr = before ++ .opened file :: after →
        (∀ e ∈ after, e.isOpened = false) → decoded after <+: file ∧
          ∀ played rest, after = played ++ .ended :: rest → .stopped ∉ played →
            decoded after = file := by
  obtain ⟨hshown, hplaced, -⟩ := inv_of_run h
  refine ⟨hshown.sound, paint_of_run hshown.screen, ?_, ?_⟩
  · intro before changed fb after hsplit
    obtain ⟨screen, hrun, rfl⟩ := hshown.pulls before changed fb after hsplit
    obtain ⟨hinv, -⟩ := Screen.run_keeps .fresh hrun
    refine ⟨_, paint_of_run hrun, fun hres => ?_⟩
    have hknown : screen.tracking.Known := hinv.known.resolve_left fun hfb => hres (by rw [hfb])
    exact (pull_spec hinv.sized hknown hinv.front).1
  · intro before file after hsplit hafter
    exact hplaced.decoded hsplit hafter

/-! ### Runs of one file -/

/-- Where no file is opened. -/
theorem opened_nil {l : List Out} (h : ∀ e ∈ l, e.isOpened = false) :
    l.filterMap Out.opened? = [] := by
  rw [List.filterMap_eq_nil_iff]
  intro e he
  have hclosed := h e he
  cases e with
  | opened file => cases hclosed
  | _ => rfl

section OneFile

variable {file : List UInt8} {allow : Replay → Action → Prop}

/-- What was decoded, and what the next chunk has, is a start of the only file. -/
theorem decoded_ahead (hplaced : Placed tr s) (hblank : Blank tr)
    (hone : tr.filterMap Out.opened? <+: [file]) : decoded tr ++ s.nextBytes <+: file := by
  obtain ⟨n, hnext⟩ : ∃ n, s.nextBytes = (s.file.drop s.pos).take n := by
    unfold nextBytes
    split
    · exact ⟨_, rfl⟩
    · exact ⟨0, List.take_zero.symm⟩
  have hclosed {l : List Out} (h : ∀ e ∈ l, e.opened? = none) : ∀ e ∈ l, e.isOpened = false := by
    intro e he
    have hnone := h e he
    cases e with
    | opened file => cases hnone
    | _ => rfl
  rcases hopened : tr.filterMap Out.opened? with _ | ⟨f, fs⟩
  · have hnone := List.filterMap_eq_nil_iff.mp hopened
    have hfile := hplaced.file
    rw [Trace.latest, List.findSome?_eq_none_iff.mpr fun e he => hnone e (List.mem_reverse.mp he),
      Option.getD_none] at hfile
    rw [hblank tr List.prefix_rfl (hclosed hnone), hnext, ← hfile, List.drop_nil, List.take_nil]
    exact List.nil_prefix
  · rw [hopened] at hone
    obtain ⟨rfl, hfs⟩ := List.cons_prefix_cons.mp hone
    rw [List.prefix_nil.mp hfs] at hopened
    obtain ⟨before, e, after, rfl, hbefore, he, hafter⟩ := List.filterMap_eq_cons_iff.mp hopened
    have hafter := List.filterMap_eq_nil_iff.mp hafter
    obtain rfl : e = .opened f := by
      cases e with
      | opened file => rw [Option.some.inj he]
      | _ => cases he
    have hdecoded : decoded (before ++ .opened f :: after) = decoded after := by
      rw [decoded_append, hblank before (List.prefix_append _ _) (hclosed hbefore), List.nil_append]
      exact List.nil_append _
    have hplayed : played (before ++ .opened f :: after) = after :=
      Trace.since_split rfl (hclosed hafter)
    have hfile := hplaced.file
    rw [Trace.latest_split (f := Out.opened?) (e := .opened f) rfl hafter, Option.getD_some] at hfile
    have htaken := hplaced.taken
    rw [hplayed] at htaken
    rw [hdecoded, htaken, hnext, ← hfile, ← List.take_add]
    exact List.take_prefix _ _

/-- **The only file that is replayed** decides whether the decoder goes on. -/
theorem fits_of_file (hfile : DvcDecoder.StreamFits {} file) (h : machine.Run allow tr s)
    (hone : tr.filterMap Out.opened? <+: [file]) : machine.Run Fits tr s := by
  induction h with
  | start => exact .start
  | @step tr s a out s' _ _ hstep ih =>
      rw [List.filterMap_append] at hone
      have hone := (List.prefix_append _ _).trans hone
      have hrun := ih hone
      refine hrun.step ?_ hstep
      cases a with
      | chunk =>
          intro _
          obtain ⟨hshown, hplaced, hblank⟩ := inv_of_run hrun
          obtain ⟨-, ev, hdecoded, -⟩ := Screen.run_keeps .fresh hshown.screen
          rw [bytes_ops] at hdecoded
          obtain ⟨rest, hrest⟩ := decoded_ahead hplaced hblank hone
          obtain ⟨d, evFile, hfeed⟩ := feed_of_fits .fresh hfile
          rw [← hrest, List.append_assoc] at hfeed
          obtain ⟨e, ev₁, ev₂, hpart, hlast, -⟩ := feed_append_ok hfeed
          rw [hdecoded] at hpart
          cases hpart
          obtain ⟨e', ev₃, ev₄, hnext, -⟩ := feed_append_ok hlast
          exact (feed_ok_iff hshown.inv.decoder).mp ⟨e', ev₃, hnext⟩
      | _ => trivial

end OneFile

/-! ### Captures -/

open Session in
theorem foldl_capFb (hooks : List Event) : ∀ screen : CapFb,
    (hooks.foldl CapFb.handle screen).fb = hooks.foldl Framebuffer.handle screen.fb := by
  induction hooks with
  | nil => intro screen; rfl
  | cons e hooks ih =>
      intro screen
      rw [List.foldl_cons, List.foldl_cons, ih, CapFb.handle_framebuffer]

open Session in
/-- The decoder and the picture of the capture tool are those of the bytes that it writes to its
file. -/
theorem handed_of_feed (stream : List UInt8) : ∀ {x x' : Client CapFb} {handed : List Handed},
    x.feed captureSession stream = .ok (x', handed) → ∃ ev,
      x.decoder.feed (handed.map Handed.byte) = .ok (x'.decoder, ev) ∧
        x'.screen.fb = ev.foldl Framebuffer.handle x.screen.fb := by
  induction stream with
  | nil =>
      intro x x' handed hfeed
      cases hfeed
      exact ⟨[], rfl, rfl⟩
  | cons c stream ih =>
      intro x x' handed hfeed
      obtain ⟨x₁, handed₁, handed₂, hstep, hrest, rfl⟩ := Client.feed_cons_ok hfeed
      obtain ⟨ev, hev, hscreen⟩ := ih hrest
      obtain ⟨-, rfl, rfl⟩ | ⟨-, d, hooks, hd, rfl, rfl⟩ := Client.step_cases hstep
      · exact ⟨ev, hev, hscreen⟩
      · have hfb : (hooks.foldl captureSession.handle x.screen).fb =
            hooks.foldl Framebuffer.handle x.screen.fb := foldl_capFb hooks x.screen
        refine ⟨hooks ++ ev, ?_, ?_⟩
        · rw [List.map_append, List.map_singleton, List.singleton_append, feed_cons hd, hev,
            ok_bind]
        · rw [hscreen, hfb, List.foldl_append]

open Session in
theorem feed_paint {stream : List UInt8} {x x' : Client CapFb} {handed : List Handed}
    (hfeed : x.feed captureSession stream = .ok (x', handed)) :
    Ui.paint x.decoder x.screen.fb (handed.map Handed.byte) = .ok x'.screen.fb := by
  obtain ⟨ev, hev, hscreen⟩ := handed_of_feed stream hfeed
  rw [paint_of_feed hev, hscreen]

open Session in
/-- What a capture writes first it writes of what it received first. -/
theorem feed_prefix (stream : List UInt8) : ∀ {x x' : Client CapFb} {handed : List Handed},
    x.feed captureSession stream = .ok (x', handed) →
      ∀ p : List UInt8, p <+: handed.map Handed.byte → ∃ received x'' handed',
        received <+: stream ∧ x.feed captureSession received = .ok (x'', handed') ∧
          handed'.map Handed.byte = p := by
  induction stream with
  | nil =>
      intro x x' handed hfeed p hp
      cases hfeed
      exact ⟨[], x, [], List.prefix_rfl, rfl, (List.prefix_nil.mp hp).symm⟩
  | cons c stream ih =>
      intro x x' handed hfeed p hp
      obtain ⟨x₁, handed₁, handed₂, hstep, hrest, rfl⟩ := Client.feed_cons_ok hfeed
      rw [List.map_append] at hp
      by_cases hlen : (handed₁.map Handed.byte).length ≤ p.length
      · obtain ⟨p', rfl⟩ := List.prefix_of_prefix_length_le (List.prefix_append _ _) hp hlen
        obtain ⟨received, x'', handed', hreceived, hfeed', rfl⟩ :=
          ih hrest p' ((List.prefix_append_right_inj _).mp hp)
        refine ⟨c :: received, x'', handed₁ ++ handed', (List.prefix_cons_inj c).mpr hreceived, ?_,
          List.map_append⟩
        rw [Client.feed_cons hstep, hfeed', ok_bind]
      · -- A byte is handed over alone, so that nothing is written yet.
        have hone : handed₁.length ≤ 1 := by
          obtain ⟨-, -, rfl⟩ | ⟨-, d, hooks, -, -, rfl⟩ := Client.step_cases hstep
          · exact Nat.zero_le 1
          · exact Nat.le_refl 1
        have hnil : p = [] := List.length_eq_zero_iff.mp (by rw [List.length_map] at hlen; omega)
        exact ⟨[], x, [], List.nil_prefix, rfl, hnil.symm⟩

open Session in
/-- **The replay of a capture.**  However the console port sent it, encrypted or not, and with new
keys on the way, the file of a capture whose decoder took what it received shows, at every moment
of its replay, the picture that the capture tool had at some moment of what it received; and when
the thread has ended without a `stop`, it is the last one. -/
theorem replay_capture {allow : Replay → Action → Prop}
    {keys : Option (Vector UInt8 16 × Vector UInt8 16)} {stream : List UInt8}
    {cap : Client CapFb} {handed : List Handed}
    (hfeed : Client.feed captureSession { session := session keys, screen := {} } stream =
      .ok (cap, handed))
    (h : machine.Run allow tr s) {before after : List Out}
    (htr : tr = before ++ .opened (handed.map Handed.byte) :: after)
    (hbefore : ∀ e ∈ before, e.isOpened = false) (hafter : ∀ e ∈ after, e.isOpened = false) :
    s.fault = none ∧
    (∃ received cap' handed', received <+: stream ∧
      Client.feed captureSession { session := session keys, screen := {} } received =
        .ok (cap', handed') ∧ s.screen.tracking.fb = cap'.screen.fb) ∧
    ∀ played rest, after = played ++ .ended :: rest → .stopped ∉ played →
      s.screen.tracking.fb = cap.screen.fb := by
  obtain ⟨ev, hev, -⟩ := handed_of_feed stream hfeed
  have hfits : DvcDecoder.StreamFits {} (handed.map Handed.byte) :=
    (feed_ok_iff .fresh).mp ⟨cap.decoder, ev, hev⟩
  have hone : tr.filterMap Out.opened? = [handed.map Handed.byte] := by
    rw [htr, List.filterMap_append, opened_nil hbefore, List.nil_append]
    show handed.map Handed.byte :: after.filterMap Out.opened? = _
    rw [opened_nil hafter]
  have hrun := fits_of_file hfits h (hone ▸ List.prefix_rfl)
  obtain ⟨hshown, hplaced, hblank⟩ := inv_of_run hrun
  obtain ⟨hpart, hwhole⟩ := hplaced.decoded htr hafter
  have hdecoded : decoded tr = decoded after := by
    rw [htr, decoded_append, hblank before (htr ▸ List.prefix_append _ _) hbefore,
      List.nil_append]
    exact List.nil_append _
  have hpicture := paint_of_run hshown.screen
  rw [hdecoded] at hpicture
  refine ⟨hshown.sound, ?_, ?_⟩
  · obtain ⟨received, cap', handed', hreceived, hfeed', hsame⟩ := feed_prefix stream hfeed _ hpart
    have hpaint := feed_paint hfeed'
    rw [hsame] at hpaint
    exact ⟨received, cap', handed', hreceived, hfeed', Except.ok.inj (hpicture.symm.trans hpaint)⟩
  · intro played rest hended hstopped
    have hpaint := feed_paint hfeed
    rw [hwhole played rest hended hstopped] at hpicture
    exact Except.ok.inj (hpicture.symm.trans hpaint)

/-- A file of two bytes, replayed one by one, with a pull between them. -/
def twoBytes : List Action :=
  [.startReplay (some [0x1D, 0x12]) 1, .begins, .chunk, .pull, .chunk, .chunk]

theorem twoBytes_run : ∃ s, machine.Run (fun _ _ => True)
    ([] ++ .opened [0x1D, 0x12] ::
      [.decoded [0x1D], .pulled false {}, .decoded [0x12], .ended]) s := by
  have hexec : (machine.exec (fun _ _ => True) machine.start twoBytes).map Prod.snd =
      some ([] ++ .opened [0x1D, 0x12] ::
        [.decoded [0x1D], .pulled false {}, .decoded [0x12], .ended]) := by
    decide +kernel
  obtain ⟨⟨s, tr⟩, hrun, rfl⟩ := Option.map_eq_some_iff.mp hexec
  exact ⟨s, Machine.run_of_exec hrun⟩

theorem replay_exact_two : ∃ tr s, machine.Run Fits tr s ∧
    decoded tr = [0x1D, 0x12] ∧ Ui.paint {} {} [0x1D, 0x12] = .ok s.screen.tracking.fb := by
  obtain ⟨s, hrun⟩ := twoBytes_run
  have hfits : DvcDecoder.StreamFits {} [0x1D, 0x12] :=
    streamFits_of_isOk .fresh (by decide +kernel)
  have hrun := fits_of_file hfits hrun List.prefix_rfl
  exact ⟨_, s, hrun, rfl, (replay_exact hrun).2.1⟩

open Session in
theorem replay_capture_rekey : ∃ tr s cap handed, machine.Run (fun _ _ => True) tr s ∧
    Client.feed captureSession { session := session sampleKeys, screen := {} } rekeyStream =
      .ok (cap, handed) ∧ s.screen.tracking.fb = cap.screen.fb := by
  have hobs : (match Client.feed captureSession { session := session sampleKeys, screen := {} }
      rekeyStream with
      | .ok (_, handed) => decide (handed.map Handed.byte = [0x1D, 0x12])
      | .error _ => false) = true := by decide +kernel
  rcases hfeed : Client.feed captureSession { session := session sampleKeys, screen := {} }
      rekeyStream with _ | ⟨cap, handed⟩
  · rw [hfeed] at hobs
    cases hobs
  · rw [hfeed] at hobs
    have hfile : handed.map Handed.byte = [0x1D, 0x12] := of_decide_eq_true hobs
    obtain ⟨s, hrun⟩ := twoBytes_run
    rw [← hfile] at hrun
    refine ⟨_, s, cap, handed, hrun, rfl, ?_⟩
    refine (replay_capture hfeed hrun rfl (by simp) ?_).2.2
      [.decoded [0x1D], .pulled false {}, .decoded [0x12]] [] rfl (by decide)
    decide

end Replay

end Ilo2.Ui
