import Ilo2.Ribcl.Exchange
import Ilo2.Ribcl.Section

/-!
# The early stop of an exchange

`ribcl_exchange` stops reading at the record that completes a marker, and the parsers get
what was read until then.

* `answer_eq_iff` - a parser makes of the start of a reply what it makes of the whole,
  exactly if the start has the whole answer.
* `early_stop_iff` - **the early stop loses nothing**, exactly if the record that completes
  a marker also brings the rest of the answer.
-/

namespace Ilo2.Ribcl

open Text Tls

/-- What the caller of a command reads from the reply. -/
inductive Answer where
  | hostPower (s : List UInt8)
  | vmStatus (s : VmStatus)
  | fwInfo (f : FwInfo)
  | health (h : HealthData)
  | readings (p : PowerReadings)
deriving DecidableEq

/-- Of the reply to a write, and to `GetOneTimeBoot`, no parser reads more than
`ribcl_parse`. -/
def answer (cmd : RibclCommand) (raw : List UInt8) : Answer :=
  match cmd with
  | .getVmStatus => .vmStatus (parseVmStatus raw)
  | .getFwVersion => .fwInfo (parseFwVersion raw)
  | .getEmbeddedHealth => .health (parseEmbeddedHealth raw)
  | .getPowerReadings => .readings (parsePowerReadings raw)
  | _ => .hostPower (ribclParse raw).hostPower

/-- The tag that ends the answer of a command. -/
def Closes (name : String) (t : XmlTag) : Prop := t.closing = true ∧ t.name = ascii name

instance (name : String) (t : XmlTag) : Decidable (Closes name t) :=
  inferInstanceAs (Decidable (_ ∧ _))

/-- The answer stands in `s` from its first to its last byte: a value with its quotes, an
element with its `/>`, a report with its closing tag. -/
def HasAnswer (cmd : RibclCommand) (s : List UInt8) : Prop :=
  match cmd with
  | .getPowerStatus => ribclAttrValues s (ascii "HOST_POWER") ≠ []
  | .getVmStatus => element (ascii "<GET_VM_STATUS") s ≠ none
  | .getFwVersion => element (ascii "<GET_FW_VERSION") s ≠ none
  | .getEmbeddedHealth => ∃ t ∈ tags s, Closes "GET_EMBEDDED_HEALTH_DATA" t
  | .getPowerReadings => ∃ t ∈ tags s, Closes "GET_POWER_READINGS" t
  | _ => True

instance (cmd : RibclCommand) (s : List UInt8) : Decidable (HasAnswer cmd s) := by
  cases cmd <;> unfold HasAnswer <;> infer_instance

/-- A tag of the envelope, in which the firmware puts every document. -/
def Envelope (t : XmlTag) : Prop := t.name = ascii "RIBCL" ∨ t.name = ascii "RESPONSE"

instance (t : XmlTag) : Decidable (Envelope t) := inferInstanceAs (Decidable (_ ∨ _))

/-- A report is closed once, and nothing but the envelope follows. -/
def Reported (name : String) (s : List UInt8) : Prop :=
  ∃ before t after, tags s = before ++ t :: after ∧ (∀ u ∈ before, ¬ Closes name u) ∧
    Closes name t ∧ ∀ u ∈ after, Envelope u

/-- The reply has an answer to the command, and no second one. -/
def Answered (cmd : RibclCommand) (s : List UInt8) : Prop :=
  match cmd with
  | .getPowerStatus => ∃ v, v ≠ [] ∧ ribclAttrValues s (ascii "HOST_POWER") = [v]
  | .getVmStatus => (parseVmStatus s).valid = true
  | .getFwVersion => (parseFwVersion s).valid = true
  | .getEmbeddedHealth => Reported "GET_EMBEDDED_HEALTH_DATA" s
  | .getPowerReadings => Reported "GET_POWER_READINGS" s
  | _ => ribclAttrValues s (ascii "HOST_POWER") = []

/-! ### The parsers on the start of a reply -/

variable {cmd : RibclCommand} {s t : List UInt8}

theorem isName_hostPower : IsName (ascii "HOST_POWER") := ⟨by decide, by decide +kernel⟩

/-- The scan of the start of a reply with one value finds it, or nothing. -/
theorem hostPower_eq_iff {v : List UInt8} (hv : v ≠ [])
    (h : ribclAttrValues (s ++ t) (ascii "HOST_POWER") = [v]) :
    (ribclParse s).hostPower = (ribclParse (s ++ t)).hostPower ↔
      ribclAttrValues s (ascii "HOST_POWER") ≠ [] := by
  have hpre := prefix_attrValues isName_hostPower s t
  rw [h] at hpre
  simp only [ribclParse, h]
  generalize ribclAttrValues s (ascii "HOST_POWER") = vs at hpre ⊢
  cases vs with
  | nil =>
      simp only [List.getLast?_nil, Option.getD_none, List.getLast?_singleton, Option.getD_some,
        ne_eq, not_true_eq_false, iff_false]
      exact hv.symm
  | cons w vs =>
      obtain ⟨rfl, hnil⟩ := List.cons_prefix_cons.mp hpre
      rw [List.prefix_nil.mp hnil]
      simp

theorem parseVmStatus_eq_iff (h : (parseVmStatus (s ++ t)).valid = true) :
    parseVmStatus s = parseVmStatus (s ++ t) ↔ element (ascii "<GET_VM_STATUS") s ≠ none := by
  constructor
  · intro heq hnone
    rw [← heq, parseVmStatus, hnone] at h
    cases h
  · intro hsome
    obtain ⟨el, hel⟩ := Option.ne_none_iff_exists'.mp hsome
    rw [parseVmStatus, parseVmStatus, hel, element_append (by decide) hel]

theorem parseFwVersion_eq_iff (h : (parseFwVersion (s ++ t)).valid = true) :
    parseFwVersion s = parseFwVersion (s ++ t) ↔ element (ascii "<GET_FW_VERSION") s ≠ none := by
  constructor
  · intro heq hnone
    rw [← heq, parseFwVersion, hnone] at h
    cases h
  · intro hsome
    obtain ⟨el, hel⟩ := Option.ne_none_iff_exists'.mp hsome
    rw [parseFwVersion, parseFwVersion, hel, element_append (by decide) hel]

/-- The envelope opens no section and fills no record. -/
theorem healthStep_envelope {u : XmlTag} (h : Envelope u) (st : HealthData × Section) :
    healthStep st u = st := by
  obtain ⟨d, sec⟩ := st
  obtain ⟨name, closing, attrs⟩ := u
  have hname : name = ascii "RIBCL" ∨ name = ascii "RESPONSE" := h
  rcases hname with rfl | rfl <;> cases closing <;> cases sec <;> rfl

theorem readingStep_envelope {u : XmlTag} (h : Envelope u) (p : PowerReadings) :
    readingStep p u = p := by
  obtain ⟨name, closing, attrs⟩ := u
  have hname : name = ascii "RIBCL" ∨ name = ascii "RESPONSE" := h
  rcases hname with rfl | rfl <;> cases closing <;> rfl

/-- A fold over tags that end with some that it ignores. -/
theorem foldl_ignored {σ : Type} {step : σ → XmlTag → σ} {ts : List XmlTag}
    (h : ∀ u ∈ ts, ∀ st, step st u = st) (st : σ) : ts.foldl step st = st := by
  induction ts with
  | nil => rfl
  | cons u ts ih =>
      rw [List.foldl_cons, h u List.mem_cons_self]
      exact ih fun v hv => h v (List.mem_cons_of_mem u hv)

/-- A parser of reports: `step` is the body of its loop, `out` what it returns, and `valid`
the flag in it that the closing tag sets. -/
structure ReportParser {σ ω : Type} (name : String) (step : σ → XmlTag → σ) (out : σ → ω)
    (valid : ω → Bool) : Prop where
  sets : ∀ st u, Closes name u → valid (out (step st u)) = true
  keeps : ∀ st u, ¬ Closes name u → valid (out (step st u)) = valid (out st)
  ignores : ∀ u, Envelope u → ∀ st, step st u = st

section ReportParser

variable {σ ω : Type} {name : String} {step : σ → XmlTag → σ} {out : σ → ω} {valid : ω → Bool}

theorem ReportParser.valid_iff (P : ReportParser name step out valid) (ts : List XmlTag) {st : σ}
    (hst : valid (out st) = false) :
    valid (out (ts.foldl step st)) = true ↔ ∃ u ∈ ts, Closes name u := by
  induction ts using List.reverseRecOn with
  | nil => simp [hst]
  | append_singleton ts u ih =>
      rw [List.foldl_append, List.foldl_cons, List.foldl_nil]
      by_cases hu : Closes name u
      · simp [P.sets _ _ hu, hu]
      · rw [P.keeps _ _ hu, ih]
        simp [hu]

/-- **A report, and the start of it**: the parser makes the same of both, exactly if the
closing tag is in the start. -/
theorem ReportParser.eq_iff (P : ReportParser name step out valid) {st : σ}
    (hst : valid (out st) = false) (h : Reported name (s ++ t)) :
    out (scanTags step s st) = out (scanTags step (s ++ t) st) ↔
      ∃ u ∈ tags s, Closes name u := by
  obtain ⟨before, u, after, htags, hbefore, hu, hafter⟩ := h
  obtain ⟨more, hmore⟩ := prefix_tags s t
  rw [scanTags_eq, scanTags_eq]
  constructor
  · intro heq
    refine (P.valid_iff (tags s) hst).mp ?_
    rw [heq]
    refine (P.valid_iff _ hst).mpr ⟨u, ?_, hu⟩
    rw [htags]
    simp
  · rintro ⟨v, hv, hcv⟩
    -- what follows the tags of the start is part of what follows the closing tag
    have hlen : (before ++ [u]).length ≤ (tags s).length := by
      by_contra hlt
      have hsub : tags s <+: before := by
        refine List.prefix_of_prefix_length_le ⟨more, hmore⟩ ⟨u :: after, htags.symm⟩ ?_
        simp only [List.length_append, List.length_singleton] at hlt
        omega
      exact hbefore v (hsub.subset hv) hcv
    have hsub : before ++ [u] <+: tags s :=
      List.prefix_of_prefix_length_le ⟨after, by rw [htags]; simp⟩ ⟨more, hmore⟩ hlen
    obtain ⟨mid, hmid⟩ := hsub
    have hafter' : after = mid ++ more := by
      have heq := hmore.trans htags
      rw [← hmid, List.append_assoc, List.append_assoc] at heq
      have hcons : u :: (mid ++ more) = u :: after := List.append_cancel_left heq
      exact (List.cons.inj hcons).2.symm
    have hign : ∀ w ∈ more, ∀ st, step st w = st := by
      intro w hw
      refine P.ignores w (hafter w ?_)
      rw [hafter']
      exact List.mem_append_right mid hw
    rw [← hmore, List.foldl_append, foldl_ignored hign]

end ReportParser

theorem healthParser : ReportParser "GET_EMBEDDED_HEALTH_DATA" healthStep Prod.fst
    HealthData.valid where
  sets st u hu := by
    obtain ⟨h, sec⟩ := st
    unfold healthStep
    dsimp only
    rw [if_pos hu.1, if_pos hu.2]
  keeps st u hu := by
    obtain ⟨h, sec⟩ := st
    unfold healthStep
    dsimp only
    by_cases hclosing : u.closing = true
    · rw [if_pos hclosing, if_neg fun hname => hu ⟨hclosing, hname⟩]
    · have hopen : u.closing = false := Bool.eq_false_iff.mpr hclosing
      rw [if_neg hclosing]
      cases sec with
      | none => rfl
      | fans => rw [fanTag_eq h hopen]
      | temps => rw [tempTag_eq h hopen]
      | supplies => rw [supplyTag_eq h hopen]
      | drives => rw [driveTag_eq h hopen]
      | glance => rfl
  ignores _ hu := healthStep_envelope hu

theorem readingParser : ReportParser "GET_POWER_READINGS" readingStep id PowerReadings.valid where
  sets p u hu := by
    rw [readingStep, if_pos hu.1, if_pos hu.2]
    rfl
  keeps p u hu := by
    unfold readingStep
    by_cases hclosing : u.closing = true
    · rw [if_pos hclosing, if_neg fun hname => hu ⟨hclosing, hname⟩]
    · rw [if_neg hclosing]
      dsimp only
      split_ifs <;> rfl
  ignores _ hu := readingStep_envelope hu

/-- **The start of a reply**: a parser makes of it what it makes of the whole, exactly if the
whole answer is in it. -/
theorem answer_eq_iff (h : Answered cmd (s ++ t)) :
    answer cmd s = answer cmd (s ++ t) ↔ HasAnswer cmd s := by
  have hnone (h : ribclAttrValues (s ++ t) (ascii "HOST_POWER") = []) :
      (ribclParse s).hostPower = (ribclParse (s ++ t)).hostPower := by
    have hpre := prefix_attrValues isName_hostPower s t
    rw [h] at hpre
    simp only [ribclParse, h, List.prefix_nil.mp hpre]
  cases cmd with
  | getPowerStatus =>
      obtain ⟨v, hv, hvalues⟩ := h
      simp only [answer, Answer.hostPower.injEq]
      exact hostPower_eq_iff hv hvalues
  | getVmStatus =>
      simp only [answer, Answer.vmStatus.injEq]
      exact parseVmStatus_eq_iff h
  | getFwVersion =>
      simp only [answer, Answer.fwInfo.injEq]
      exact parseFwVersion_eq_iff h
  | getEmbeddedHealth =>
      simp only [answer, Answer.health.injEq]
      exact healthParser.eq_iff rfl h
  | getPowerReadings =>
      simp only [answer, Answer.readings.injEq]
      exact readingParser.eq_iff rfl h
  | getOneTimeBoot | powerOn | powerOff | forcePowerOff | reset | coldBoot | uidOn | uidOff
  | setOneTimeBoot | insertVirtualMedia | ejectVirtualMedia | setVmBootOption =>
      simp only [answer, hnone h, HasAnswer]

/-! ### The exchange -/

variable {C : Type} {ch : Channel C} {c c₁ d : C} {rs : List (List UInt8)}
  {user pass : List UInt8}

theorem complete_append (h : ribclReplyComplete s = true) (t : List UInt8) :
    ribclReplyComplete (s ++ t) = true := by
  have hsome {p : List UInt8} (hp : p ≠ []) (h : (find p s).isSome = true) :
      (find p (s ++ t)).isSome = true := by
    obtain ⟨i, hi⟩ := Option.isSome_iff_exists.mp h
    rw [find_append hp hi]
    rfl
  simp only [ribclReplyComplete, Bool.or_eq_true] at h ⊢
  rcases h with ((((h | h) | h) | h) | h) | h
  · exact Or.inl (Or.inl (Or.inl (Or.inl (Or.inl (hsome (by decide) h)))))
  · exact Or.inl (Or.inl (Or.inl (Or.inl (Or.inr (hsome (by decide) h)))))
  · exact Or.inl (Or.inl (Or.inl (Or.inr (hsome (by decide) h))))
  · exact Or.inl (Or.inl (Or.inr (hsome (by decide) h)))
  · exact Or.inl (Or.inr (hsome (by decide) h))
  · exact Or.inr (hsome (by decide) h)

/-- The marker is complete with the last of these records, the loop having gone on until
then. -/
def StopsAfter (rs : List (List UInt8)) : Prop :=
  ∃ before bs, rs = before ++ [bs] ∧ GoesOn ribclReplyComplete [] before ∧
    ribclReplyComplete rs.flatten = true

/-- What an exchange returns is worth as much as the whole reply. -/
def LosesNothing (ch : Channel C) (c : C) (user pass : List UInt8) (cmd : RibclCommand)
    (args : RibclArgs) (reply : List UInt8) : Prop :=
  ∀ calls raw c', ribclExchange ch calls c user pass (ribclBody cmd args) ribclReplyComplete =
    (.ok raw, c') → answer cmd raw = answer cmd reply

/-- The loop does stop there. -/
theorem StopsAfter.exchange {p : List (List UInt8)} {body : List UInt8} (h : StopsAfter p)
    (hsent : Sent ch c user pass body c₁) (hgets : Gets ch c₁ p d) :
    ∃ calls, ribclExchange ch calls c user pass body ribclReplyComplete = (.ok p.flatten, d) := by
  obtain ⟨before, bs, rfl, hgo, hdone⟩ := h
  obtain ⟨e, hbefore, hlast⟩ := hgets.split
  cases hlast with
  | cons hrecv hnil =>
      cases hnil
      refine ⟨1 + before.length, ?_⟩
      rw [ribclExchange_eq hsent, exchangeLoop_gets hbefore hgo, exchangeLoop, hrecv]
      simp only [List.flatten_append, List.flatten_singleton, List.nil_append] at hdone ⊢
      rw [if_pos hdone]

/-- **The early stop loses nothing** that the caller reads, exactly if the record that
completes a marker also brings the rest of the answer.  The reply `rs.flatten` may be any
text that has one answer to the command, or no marker at all. -/
theorem early_stop_iff {cmd : RibclCommand} {args : RibclArgs}
    (hsent : Sent ch c user pass (ribclBody cmd args) c₁) (hgets : Gets ch c₁ rs d)
    (hend : Ended ch d)
    (hreply : ribclReplyComplete rs.flatten = true → Answered cmd rs.flatten) :
    LosesNothing ch c user pass cmd args rs.flatten ↔
      ∀ p, p <+: rs → StopsAfter p → HasAnswer cmd p.flatten := by
  have hsame {p more : List (List UInt8)} (hp : rs = p ++ more) (hstop : StopsAfter p) :
      answer cmd p.flatten = answer cmd rs.flatten ↔ HasAnswer cmd p.flatten := by
    subst hp
    obtain ⟨-, -, -, -, hdone⟩ := hstop
    rw [List.flatten_append] at hreply ⊢
    exact answer_eq_iff (hreply (complete_append hdone _))
  constructor
  · rintro hloses p ⟨more, rfl⟩ hstop
    obtain ⟨e, hgets, -⟩ := hgets.split
    obtain ⟨calls, hex⟩ := hstop.exchange hsent hgets
    exact (hsame rfl hstop).mp (hloses calls _ _ hex)
  · intro hbrings calls raw c' hex
    obtain ⟨c₂, hsent', hloop⟩ := ribclExchange_ok hex
    obtain rfl := hsent.unique hsent'
    obtain ⟨before, e, hbefore, hgo, hlast⟩ := exchangeLoop_ok hloop
    simp only [List.nil_append] at hlast
    -- the next outcome after `before` is the record that stops the loop, or no data
    rcases hlast with ⟨bs, hrecv, rfl, hdone⟩ | ⟨err, hrecv, rfl⟩ | ⟨err, hrecv, rfl, -⟩
    · obtain ⟨more, rfl, -⟩ := hgets.extends hend (hbefore.append (.cons hrecv .nil))
      have hflat : before.flatten ++ bs = (before ++ [bs]).flatten := by simp
      rw [hflat] at hdone ⊢
      have hstop : StopsAfter (before ++ [bs]) := ⟨before, bs, rfl, hgo, hdone⟩
      exact (hsame rfl hstop).mpr (hbrings _ (List.prefix_append _ _) hstop)
    · obtain ⟨more, rfl, hmore⟩ := hgets.extends hend hbefore
      cases hmore with
      | nil => rw [List.append_nil]
      | cons hrecv' _ => rw [hrecv] at hrecv'; cases hrecv'
    · obtain ⟨more, rfl, hmore⟩ := hgets.extends hend hbefore
      cases hmore with
      | nil => rw [List.append_nil]
      | cons hrecv' _ => rw [hrecv] at hrecv'; cases hrecv'

/-- A reply to `GetPowerStatus`. -/
def powerReply : List UInt8 :=
  partialReply ++ documentHead ++ ascii "<GET_HOST_POWER\r\n" ++
    ascii "    HOST_POWER=\"ON\"\r\n" ++ ascii "    />\r\n" ++ ascii "</RIBCL>\r\n"

theorem powerReply_answered : Answered .getPowerStatus powerReply :=
  ⟨ascii "ON", by decide, by decide +kernel⟩

/-- Cut behind the closing quote, the reply is read as a whole. -/
theorem early_stop_behind_quote : LosesNothing (Channel.script (.failed silence))
    [powerReply.take 270, powerReply.drop 270] [] [] .getPowerStatus {} powerReply := by
  have hsent : Sent (Channel.script (.failed silence))
      [powerReply.take 270, powerReply.drop 270] [] [] (ribclBody .getPowerStatus {})
      [powerReply.take 270, powerReply.drop 270] := ⟨_, rfl, rfl⟩
  have hflat : [powerReply.take 270, powerReply.drop 270].flatten = powerReply := by simp
  have hiff := early_stop_iff hsent (Channel.script_gets _) (fun _ h => by cases h)
    (fun _ => hflat.symm ▸ powerReply_answered)
  rw [hflat] at hiff
  refine hiff.mpr fun p hp hstop => ?_
  rcases List.prefix_cons_iff.mp hp with rfl | ⟨more, rfl, hmore⟩
  · obtain ⟨before, bs, hnil, -⟩ := hstop
    exact absurd hnil.symm (List.append_ne_nil_of_right_ne_nil before (List.cons_ne_nil bs []))
  · -- The first record already has the value.
    rcases List.prefix_cons_iff.mp hmore with rfl | ⟨none, rfl, hnone⟩
    · decide +kernel
    · rw [List.prefix_nil.mp hnone, hflat]
      decide +kernel

/-- If the first record ends right behind the marker, the value is lost. -/
theorem early_stop_loses : Answered .getPowerStatus powerReply ∧
    ([powerReply.take 266, powerReply.drop 266] : List (List UInt8)).flatten = powerReply ∧
    ¬ LosesNothing (Channel.script (.failed silence)) [powerReply.take 266, powerReply.drop 266] [] []
      .getPowerStatus {} powerReply := by
  refine ⟨powerReply_answered, by simp, fun h => ?_⟩
  have heq := h 1 (powerReply.take 266) [powerReply.drop 266] (by decide +kernel)
  exact absurd heq (by decide +kernel)

end Ilo2.Ribcl
