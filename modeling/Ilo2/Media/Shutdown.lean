import Ilo2.Media.Serving

/-!
# Shutting down

After its loop the worker ejects what the snapshot says is mounted.  An eject job empties
the snapshot whether or not its command took effect.

* `stop_ejects` - **an image that is left inserted is ejected before the server is stopped**,
  if no eject job failed on it.
* `stop_leaves_inserted` - otherwise it can be left, with its server stopped.
-/

namespace Ilo2.Media

open Ribcl
open Tls (ascii)

variable {cfg : Config} {tr : List Out} {s s' : Panel} {a : Action} {out : List Out}

/-! ### What is left inserted -/

/-- An image was inserted, and no eject that took effect came after it. -/
def LeftInserted (tr : List Out) : Prop :=
  ∃ before args after, tr = before ++ .sent .insertVirtualMedia args true :: after ∧
    ∀ args', .sent .ejectVirtualMedia args' true ∉ after

theorem not_leftInserted_nil : ¬ LeftInserted [] := by
  rintro ⟨before, args, after, h, -⟩
  exact List.append_ne_nil_of_right_ne_nil before (List.cons_ne_nil _ _) h.symm

/-- One more entry of the trace. -/
theorem leftInserted_concat (tr : List Out) (o : Out) :
    LeftInserted (tr ++ [o]) ↔ (∃ args, o = .sent .insertVirtualMedia args true) ∨
      (LeftInserted tr ∧ ∀ args, o ≠ .sent .ejectVirtualMedia args true) := by
  constructor
  · rintro ⟨before, args, after, h, hno⟩
    rcases List.eq_nil_or_concat after with rfl | ⟨after, o', rfl⟩
    · obtain ⟨-, ho⟩ := List.append_inj' h rfl
      exact Or.inl ⟨args, List.head_eq_of_cons_eq ho⟩
    · rw [List.concat_eq_append, ← List.cons_append, ← List.append_assoc] at h
      obtain ⟨htr, ho⟩ := List.append_inj' h rfl
      obtain rfl := List.head_eq_of_cons_eq ho
      rw [List.concat_eq_append] at hno
      refine Or.inr ⟨⟨before, args, after, htr, fun args' hmem => ?_⟩, fun args' ho => ?_⟩
      · exact hno args' (List.mem_append_left _ hmem)
      · exact hno args' (List.mem_append_right _ (ho ▸ List.mem_singleton_self _))
  · rintro (⟨args, rfl⟩ | ⟨⟨before, args, after, rfl, hno⟩, ho⟩)
    · exact ⟨tr, args, [], rfl, fun _ => List.not_mem_nil⟩
    · refine ⟨before, args, after ++ [o], by rw [List.append_assoc, List.cons_append], ?_⟩
      intro args' hmem
      rcases List.mem_append.mp hmem with hmem | hmem
      · exact hno args' hmem
      · exact ho args' (List.mem_singleton.mp hmem).symm

/-- The trace knows what is inserted. -/
theorem leftInserted_hear {i : Ilo} (h : LeftInserted tr ↔ i.inserted ≠ none) (iso : List UInt8)
    (o : Out) : LeftInserted (tr ++ [o]) ↔ (i.hear iso o).inserted ≠ none := by
  rw [leftInserted_concat, h]
  cases o with
  | sent cmd args ok =>
      cases ok with
      | false => simp
      | true => cases cmd <;> simp [Ilo.hear]
  | stopServer | sawStop | returned => simp [Ilo.hear]

theorem leftInserted_hearAll {i : Ilo} (h : LeftInserted tr ↔ i.inserted ≠ none)
    (iso : List UInt8) (out : List Out) :
    LeftInserted (tr ++ out) ↔ (i.hearAll iso out).inserted ≠ none := by
  induction out generalizing tr i with
  | nil => rwa [List.append_nil]
  | cons o out ih =>
      rw [List.append_cons]
      exact ih (leftInserted_hear h iso o)

/-! ### The snapshot -/

/-- What is asked of a step: an eject job does not fail while an image is inserted. -/
def EjectsTake (s : Panel) (a : Action) : Prop :=
  ∀ w, a = .finish w → s.worker = .busy .eject → s.ilo.inserted ≠ none →
    w.takes .ejectVirtualMedia = true

instance (s : Panel) (a : Action) : Decidable (EjectsTake s a) :=
  match a with
  | .finish w =>
      decidable_of_iff (s.worker = .busy .eject → s.ilo.inserted ≠ none →
          w.takes .ejectVirtualMedia = true)
        ⟨fun h _ hw => Action.finish.inj hw ▸ h, fun h => h w rfl⟩
  | .push _ | .begin _ | .take | .insert _ | .poll _ | .stop | .leave | .last _ | .join =>
      .isTrue nofun

/-- An inserted image has its URL in the snapshot. -/
def Noted (s : Panel) : Prop := s.ilo.inserted ≠ none → s.ctl.snap.url ≠ []

theorem Noted.of_eq (h : Noted s) (hilo : s'.ilo.inserted = s.ilo.inserted)
    (hurl : s'.ctl.snap.url = s.ctl.snap.url) : Noted s' := by
  intro hins
  rw [hurl]
  exact h (hilo ▸ hins)

theorem mount_noted {iso : List UInt8} {w : World} {worker : Worker} {log : List (Job × List Out)}
    (h : Noted s) : Noted { s.after iso worker (s.ctl.doMount w iso) with log := log } := by
  rcases s.ctl.doMount_cases w iso with ⟨-, halike, hout⟩ | ⟨-, ⟨server, -, halike⟩, -, hout⟩ |
    ⟨-, server, host, hhost, -, -, halike, -⟩
  · have hilo : s.ilo.hearAll iso (s.ctl.doMount w iso).2 = s.ilo := by rw [hout]; rfl
    exact h.of_eq (congrArg _ hilo) halike.url
  · exact h.of_eq (congrArg _ (failed_hears hout)) halike.url
  · intro _
    exact ne_of_eq_of_ne halike.url (MediaControl.url_ne hhost)

theorem eject_noted {w : World} {worker : Worker} {log : List (Job × List Out)}
    (h : s.ilo.inserted ≠ none → w.takes .ejectVirtualMedia = true) :
    Noted { s.after [] worker (s.ctl.doEject w) with log := log } := by
  intro hins
  have hilo : (s.ilo.hearAll [] (s.ctl.doEject w).2).inserted ≠ none := hins
  rw [(s.ctl.doEject_spec w).2] at hilo
  cases htakes : w.takes .ejectVirtualMedia with
  | true =>
      rw [htakes] at hilo
      simp [Ilo.hear] at hilo
  | false =>
      rw [htakes] at hilo
      simp only [Ilo.hearAll_cons, Ilo.hear_failed, Ilo.hear_stopServer, Ilo.hear_getVmStatus,
        Ilo.hearAll_nil] at hilo
      rw [h hilo] at htakes
      cases htakes

theorem note_noted {iso url : List UInt8} {w : World} {worker : Worker}
    {log : List (Job × List Out)} (hurl : url ≠ []) :
    Noted { s.after iso worker (s.ctl.note w iso url) with log := log } := by
  intro _
  exact ne_of_eq_of_ne (s.ctl.note_spec w iso url).1.url hurl

theorem job_noted {w : World} {worker : Worker} {log : List (Job × List Out)} (h : Noted s)
    (j : Job) (hallow : j = .eject → s.ilo.inserted ≠ none → w.takes .ejectVirtualMedia = true) :
    Noted { s.after j.iso worker (s.ctl.doJob w j) with log := log } := by
  cases j with
  | mount iso => exact mount_noted h
  | eject => exact eject_noted (hallow rfl)
  | armBoot =>
      refine h.of_eq ?_ ?_
      · show (s.ilo.hearAll [] (s.ctl.doArmBoot w).2).inserted = s.ilo.inserted
        rw [arm_ilo]
        split_ifs <;> rfl
      · rcases s.ctl.doArmBoot_cases w with ⟨-, halike, -⟩ | ⟨-, -, halike, -⟩ | ⟨-, -, halike, -⟩
        all_goals exact halike.url
  | refresh =>
      obtain ⟨halike, hasks⟩ := Panel.readStatus_asks w s.ctl
      exact h.of_eq (congrArg _ (Panel.hearAll_asks hasks)) halike.url

/-- No job reports the end of the loop. -/
theorem sawStop_not_mem_job (c : MediaControl) (w : World) (j : Job) :
    .sawStop ∉ (c.doJob w j).2 := by
  cases j with
  | mount iso =>
      show .sawStop ∉ (c.doMount w iso).2
      rcases c.doMount_cases w iso with ⟨-, -, hout⟩ | ⟨-, -, -, hout⟩ |
        ⟨-, server, host, -, -, -, -, hout⟩
      · rw [hout]
        exact List.not_mem_nil
      · intro hmem
        rcases hout _ hmem with h | ⟨args, h⟩ <;> cases h
      · rw [hout]
        simp
  | eject =>
      show .sawStop ∉ (c.doEject w).2
      rw [(c.doEject_spec w).2]
      simp
  | armBoot =>
      show .sawStop ∉ (c.doArmBoot w).2
      rcases c.doArmBoot_cases w with ⟨-, -, hout⟩ | ⟨-, -, -, hout⟩ | ⟨-, -, -, hout⟩
      all_goals
        rw [hout]
        simp
  | refresh =>
      show .sawStop ∉ (c.readStatus w).2
      rw [(c.readStatus_spec w).2]
      simp

/-! ### The end -/

/-- The server is stopped; and what was left inserted when the worker saw the end was ejected
next, before the server was stopped. -/
def ShutDown (tr : List Out) (s : Panel) : Prop :=
  s.ctl.server.running = false ∧
  ∃ before after, tr = before ++ .sawStop :: after ∧ .sawStop ∉ before ∧
    (LeftInserted before →
      ∃ ok rest, after = .sent .ejectVirtualMedia {} ok :: .stopServer :: rest)

theorem ShutDown.append (h : ShutDown tr s) (hs : s'.ctl.server.running = false)
    (out : List Out) : ShutDown (tr ++ out) s' := by
  obtain ⟨-, before, after, rfl, hno, hejects⟩ := h
  refine ⟨hs, before, after ++ out, by rw [List.append_assoc, List.cons_append], hno, ?_⟩
  intro hleft
  obtain ⟨ok, rest, rfl⟩ := hejects hleft
  exact ⟨ok, rest ++ out, rfl⟩

structure Shutting (tr : List Out) (s : Panel) : Prop where
  left : LeftInserted tr ↔ s.ilo.inserted ≠ none
  noted : s.worker ≠ .done → ¬ s.worker.Midway → Noted s
  midway : ∀ iso url, s.worker = .inserted iso url → url ≠ []
  working : s.worker.Working → .sawStop ∉ tr
  leaving : s.worker = .leaving → ∃ before, tr = before ++ [.sawStop] ∧ .sawStop ∉ before
  done : s.worker = .done → ShutDown tr s
  stopped : s.caller = .stopped → s.worker = .done

theorem Shutting.start : Shutting [] (machine cfg).start where
  left := by simp [not_leftInserted_nil, machine]
  noted := fun _ _ h => absurd rfl h
  midway := nofun
  working := fun _ => List.not_mem_nil
  leaving := nofun
  done := nofun
  stopped := nofun

theorem sawStop_not_mem_asks (h : Panel.Asks out) : .sawStop ∉ out := by
  intro hmem
  obtain ⟨ok, h | h⟩ := h _ hmem <;> cases h

/-- After the loop. -/
theorem Shutting.ended (h : Shutting tr s) (w : World) (hw : s.worker = .leaving) :
    Shutting (tr ++ (s.ctl.finish w).2) (s.after [] .done (s.ctl.finish w)) where
  left := leftInserted_hearAll h.left [] _
  noted := fun hd => absurd rfl hd
  midway := nofun
  working := False.elim
  leaving := nofun
  stopped := fun _ => rfl
  done := by
    intro _
    obtain ⟨hrunning, hout⟩ := s.ctl.finish_spec w
    obtain ⟨before, rfl, hno⟩ := h.leaving hw
    refine ⟨hrunning, before, (s.ctl.finish w).2, List.append_assoc _ _ _, hno, ?_⟩
    intro hleft
    have hins : s.ilo.inserted ≠ none :=
      h.left.mp ((leftInserted_concat _ _).mpr (Or.inr ⟨hleft, nofun⟩))
    rw [hout, if_pos (h.noted (hw ▸ nofun) (hw ▸ id) hins)]
    exact ⟨_, [], rfl⟩

theorem Shutting.step (h : Shutting tr s) (hallow : EjectsTake s a)
    (hstep : s.step a = some (s', out)) : Shutting (tr ++ out) s' := by
  cases Panel.step_does hstep with
  | called calm worker caller =>
      rw [List.append_nil]
      refine ⟨calm.ilo ▸ h.left, fun hd hm => (h.noted (worker ▸ hd) (worker ▸ hm)).of_eq
        (congrArg _ calm.ilo) calm.url, fun iso url hi => h.midway iso url (worker ▸ hi),
        fun hw => h.working (worker ▸ hw), fun hw => h.leaving (worker ▸ hw), ?_,
        fun hc => worker.trans (h.stopped (caller hc))⟩
      intro hd
      have hdown := h.done (worker ▸ hd)
      exact ⟨calm.server ▸ hdown.1, hdown.2⟩
  | asked calm asks worker worker' whole whole' caller =>
      have hleft := leftInserted_hearAll h.left [] out
      rw [Panel.hearAll_asks asks, ← calm.ilo] at hleft
      refine ⟨hleft, fun _ _ => (h.noted worker.ne_done whole).of_eq (congrArg _ calm.ilo) calm.url,
        fun iso url hi => absurd (hi ▸ trivial) whole', ?_, fun hl => absurd hl worker'.ne_leaving,
        fun hd => absurd hd worker'.ne_done,
        fun hc => absurd (h.stopped (caller ▸ hc)) worker.ne_done⟩
      intro _ hmem
      rcases List.mem_append.mp hmem with hmem | hmem
      · exact h.working worker hmem
      · exact sawStop_not_mem_asks asks hmem
  | finished j w worker =>
      have hw : s.worker.Working := worker ▸ trivial
      refine ⟨leftInserted_hearAll h.left j.iso _, fun _ _ => ?_, nofun, ?_, nofun, nofun,
        fun hc => absurd (h.stopped hc) hw.ne_done⟩
      · exact job_noted (h.noted hw.ne_done (worker ▸ id)) j fun hj => hallow w rfl (hj ▸ worker)
      · intro _ hmem
        rcases List.mem_append.mp hmem with hmem | hmem
        · exact h.working hw hmem
        · exact sawStop_not_mem_job _ _ _ hmem
  | inserted iso url w worker offer takes =>
      have hw : s.worker.Working := worker ▸ trivial
      obtain ⟨-, -, server, host, hhost, -, -, hurl, -⟩ := s.ctl.offer_spec offer
      refine ⟨leftInserted_hearAll h.left iso _, fun _ hm => absurd trivial hm, ?_, ?_, nofun,
        nofun, fun hc => absurd (h.stopped hc) hw.ne_done⟩
      · intro iso' url' hi
        cases hi
        exact hurl ▸ MediaControl.url_ne hhost
      · intro _ hmem
        rcases List.mem_append.mp hmem with hmem | hmem
        · exact h.working hw hmem
        · simp [Out.insertion] at hmem
  | noted iso url w worker url_eq takes =>
      have hw : s.worker.Working := worker ▸ trivial
      refine ⟨leftInserted_hearAll h.left iso _, fun _ _ => note_noted (h.midway iso url worker),
        nofun, ?_, nofun, nofun, fun hc => absurd (h.stopped hc) hw.ne_done⟩
      intro _ hmem
      rw [(s.ctl.note_spec w iso url).2] at hmem
      rcases List.mem_append.mp hmem with hmem | hmem
      · exact h.working hw hmem
      · cases List.mem_singleton.mp hmem
  | left worker =>
      have hw : s.worker.Working := worker ▸ trivial
      refine ⟨leftInserted_hear h.left [] .sawStop,
        fun _ _ => (h.noted hw.ne_done (worker ▸ id)).of_eq rfl rfl, nofun, False.elim,
        fun _ => ⟨tr, rfl, h.working hw⟩, nofun, fun hc => absurd (h.stopped hc) hw.ne_done⟩
  | ended w worker => exact h.ended w worker
  | joined worker =>
      refine ⟨leftInserted_hearAll h.left [] _, fun hd => absurd worker hd, fun iso url hi => ?_,
        fun hw => ?_, fun hl => ?_, fun hd => (h.done hd).append rfl _, fun _ => worker⟩
      · rw [show s.worker = .inserted iso url from hi] at worker
        cases worker
      · exact absurd worker hw.ne_done
      · rw [show s.worker = .leaving from hl] at worker
        cases worker

/-- **Shutting down ejects.**  When `stop` returns the server is stopped; and an image that
was left inserted when the worker saw the end was sent an eject next, before the server was
stopped, in every run in which no eject job fails while an image is inserted. -/
theorem stop_ejects (h : (machine cfg).Run EjectsTake tr s) (hc : s.caller = .stopped) :
    s.ctl.server.running = false ∧
    ∃ before after, tr = before ++ .sawStop :: after ∧ .sawStop ∉ before ∧
      (LeftInserted before →
        ∃ ok rest, after = .sent .ejectVirtualMedia {} ok :: .stopServer :: rest) := by
  have hinv := Machine.Run.inv Shutting .start (fun _ _ _ _ _ ih hallow hstep =>
    ih.step hallow hstep) h
  exact hinv.done (hinv.stopped hc)

/-- `stop` and what the worker does then. -/
def shutDown : List Action := [.stop, .leave, .last (.refusing []), .join]

theorem stop_ejects_mount : ∃ tr s, (machine ⟨[], 80, 15⟩).Run EjectsTake tr s ∧
    s.caller = .stopped ∧ s.ctl.server.running = false ∧
    ∃ before after, tr = before ++ .sawStop :: after ∧ .sawStop ∉ before ∧
      (LeftInserted before →
        ∃ ok rest, after = .sent .ejectVirtualMedia {} ok :: .stopServer :: rest) := by
  have hexec : ((machine ⟨[], 80, 15⟩).exec EjectsTake (machine ⟨[], 80, 15⟩).start
      (oneMount ++ shutDown)).map (fun r => r.1.caller) = some .stopped := by
    decide
  obtain ⟨⟨s, tr⟩, hexec, hc⟩ := Option.map_eq_some_iff.mp hexec
  have hrun := Machine.run_of_exec hexec
  exact ⟨tr, s, hrun, hc, stop_ejects hrun hc⟩

/-- What is reported of a mount, a refused eject, and `stop`: up to the end of the loop. -/
def refusedEjectTrace : List Out :=
  [.sent .getFwVersion {} true, .sent .getVmStatus {} true, .stopServer,
    .sent .insertVirtualMedia { imageUrl := ascii "http://a:80/b" } true,
    .sent .getVmStatus {} true, .sent .ejectVirtualMedia {} false, .stopServer,
    .sent .getVmStatus {} true]

/-- **After an eject that failed no other is sent**: the image stays inserted, and its server
is stopped. -/
theorem stop_leaves_inserted : ¬ ∀ (cfg : Config) (tr : List Out) (s : Panel),
    (machine cfg).Run (fun _ _ => True) tr s → s.caller = .stopped →
      s.ctl.server.running = false ∧
      ∃ before after, tr = before ++ .sawStop :: after ∧ .sawStop ∉ before ∧
        (LeftInserted before →
          ∃ ok rest, after = .sent .ejectVirtualMedia {} ok :: .stopServer :: rest) := by
  intro hall
  have hexec : ((machine ⟨[], 80, 15⟩).exec (fun _ _ => True) (machine ⟨[], 80, 15⟩).start
      (refusedEject ++ shutDown)).map (fun r => (r.1.caller, r.2)) =
        some (.stopped,
          refusedEjectTrace ++ .sawStop :: [.stopServer, .stopServer, .returned]) := by
    decide
  obtain ⟨⟨s, tr⟩, hexec, hobs⟩ := Option.map_eq_some_iff.mp hexec
  simp only [Prod.mk.injEq] at hobs
  obtain ⟨hc, htr⟩ := hobs
  obtain ⟨-, before, after, hsplit, -, hejects⟩ := hall _ tr s (Machine.run_of_exec hexec) hc
  obtain ⟨rfl, -, rfl⟩ := (List.append_cons_inj_of_notMem (by decide) (by decide)).mp
    (htr.symm.trans hsplit)
  obtain ⟨ok, rest, hafter⟩ := hejects ⟨refusedEjectTrace.take 3, _, refusedEjectTrace.drop 4, rfl,
    fun args' => by simp [refusedEjectTrace]⟩
  cases hafter

end Ilo2.Media
