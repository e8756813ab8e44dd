import Ilo2.Ribcl.Reply
import Ilo2.Tls.Channel

/-!
# RIBCL exchanges

`ribcl.hpp`: the exchange over a connected client, and `ribcl_run` around it.  The loop that
reads the reply has a bound, and is `unfinished` when it reaches it.

* `exchange_ends_iff` - **an exchange succeeds only if the reply ended as it should**, exactly
  if no failure of `recv` but a timeout follows some data.
-/

namespace Ilo2.Ribcl

open Text Tls

/-- `ribcl_reply_complete`. -/
def ribclReplyComplete (raw : List UInt8) : Bool :=
  (find (ascii "HOST_POWER=") raw).isSome ||
  (find (ascii "</GET_EMBEDDED_HEALTH_DATA>") raw).isSome ||
  (find (ascii "</GET_POWER_READINGS>") raw).isSome ||
  (find (ascii "IMAGE_URL=") raw).isSome ||
  (find (ascii "LICENSE_TYPE=") raw).isSome ||
  (find (ascii "</GET_ONE_TIME_BOOT>") raw).isSome

/-- `1u << 20`. -/
def MAX_REPLY : Nat := 2 ^ 20

variable {C : Type}

/-- The read loop of `ribcl_exchange`, with `raw` as it stands. -/
def exchangeLoop (ch : Channel C) (done : List UInt8 → Bool) :
    (calls : Nat) → (raw : List UInt8) → C → Except Stop (List UInt8) × C
  | 0, _, c => (.error .unfinished, c)
  | calls + 1, raw, c =>
      match ch.recv c with
      | (.data chunk, c) =>
          let raw := raw ++ chunk
          if done raw then (.ok raw, c)
          else if raw.length > MAX_REPLY then (.error (.failed "RIBCL reply too large"), c)
          else exchangeLoop ch done calls raw c
      | (.closed _, c) => (.ok raw, c)
      | (.failed e, c) => if raw ≠ [] then (.ok raw, c) else (.error e, c)

/-- `ribcl_exchange`: `raw`, if it returns true. -/
def ribclExchange (ch : Channel C) (calls : Nat) (c : C) (user pass body : List UInt8)
    (done : List UInt8 → Bool) : Except Stop (List UInt8) × C :=
  match ch.send c ribclProlog with
  | (.error e, c) => (.error e, c)
  | (.ok (), c) =>
      match ch.send c (ribclDocument user pass body) with
      | (.error e, c) => (.error e, c)
      | (.ok (), c) => exchangeLoop ch done calls [] c

/-- `ribcl_run`: the reply, if it returns true.  `conn` is what `connect` gave. -/
def ribclRun (ch : Channel C) (calls : Nat) (conn : Except Stop C) (user pass : List UInt8)
    (cmd : RibclCommand) (args : RibclArgs) : Except Stop RibclReply :=
  match conn with
  | .error e => .error e
  | .ok c =>
      match ribclExchange ch calls c user pass (ribclBody cmd args) ribclReplyComplete with
      | (.error e, _) => .error e
      | (.ok raw, _) =>
          let reply := ribclParse raw
          if reply.raw = [] then .error (.failed "no RIBCL reply") else .ok reply

/-! ### The read loop -/

variable {ch : Channel C} {done : List UInt8 → Bool} {c c₁ c' : C} {rs : List (List UInt8)}
  {raw s : List UInt8} {calls : Nat}

/-- The loop goes on reading after `s` and these records. -/
def GoesOn (done : List UInt8 → Bool) (s : List UInt8) (rs : List (List UInt8)) : Prop :=
  ∀ p, p <+: rs → p ≠ [] → done (s ++ p.flatten) = false ∧ (s ++ p.flatten).length ≤ MAX_REPLY

theorem GoesOn.head {bs : List UInt8} (h : GoesOn done s (bs :: rs)) :
    done (s ++ bs) = false ∧ (s ++ bs).length ≤ MAX_REPLY := by
  have := h [bs] (List.cons_prefix_cons.mpr ⟨rfl, List.nil_prefix⟩) (List.cons_ne_nil _ _)
  simpa using this

theorem GoesOn.tail {bs : List UInt8} (h : GoesOn done s (bs :: rs)) :
    GoesOn done (s ++ bs) rs := by
  intro p hp _
  have := h (bs :: p) (List.cons_prefix_cons.mpr ⟨rfl, hp⟩) (List.cons_ne_nil _ _)
  simpa using this

theorem GoesOn.cons {bs : List UInt8} (h : GoesOn done (s ++ bs) rs)
    (hdone : done (s ++ bs) = false) (hlen : (s ++ bs).length ≤ MAX_REPLY) :
    GoesOn done s (bs :: rs) := by
  intro p hp hne
  obtain ⟨b, q, rfl⟩ := List.exists_cons_of_ne_nil hne
  obtain ⟨rfl, hq⟩ := List.cons_prefix_cons.mp hp
  rw [List.flatten_cons, ← List.append_assoc]
  by_cases hnil : q = []
  · subst hnil
    rw [List.flatten_nil, List.append_nil]
    exact ⟨hdone, hlen⟩
  · exact h q hq hnil

/-- A run of the loop passes over records after which it does not stop. -/
theorem exchangeLoop_gets (h : Gets ch c rs c') (hgo : GoesOn done s rs) (calls : Nat) :
    exchangeLoop ch done (calls + rs.length) s c =
      exchangeLoop ch done calls (s ++ rs.flatten) c' := by
  induction h generalizing s with
  | nil =>
      rw [List.flatten_nil, List.append_nil]
      rfl
  | @cons c d e bs rs hrecv _ ih =>
      obtain ⟨hdone, hlen⟩ := hgo.head
      rw [List.length_cons, ← Nat.add_assoc, exchangeLoop, hrecv]
      dsimp only
      rw [hdone, if_neg (by decide), if_neg (Nat.not_lt.mpr hlen), ih hgo.tail,
        List.flatten_cons, List.append_assoc]

/-- **How the loop comes to an end**: some records pass, and then one completes the reply,
or the next outcome is no data. -/
theorem exchangeLoop_ok (h : exchangeLoop ch done calls s c = (.ok raw, c')) :
    ∃ rs d, Gets ch c rs d ∧ GoesOn done s rs ∧
      ((∃ bs, ch.recv d = (.data bs, c') ∧ raw = s ++ rs.flatten ++ bs ∧ done raw = true) ∨
        (∃ e, ch.recv d = (.closed e, c') ∧ raw = s ++ rs.flatten) ∨
        ∃ e, ch.recv d = (.failed e, c') ∧ raw = s ++ rs.flatten ∧ raw ≠ []) := by
  induction calls generalizing s c with
  | zero => cases h
  | succ calls ih =>
      have hgo : GoesOn done s [] := fun p hp hne => absurd (List.prefix_nil.mp hp) hne
      have hnil : s = s ++ ([] : List (List UInt8)).flatten := by simp
      rw [exchangeLoop] at h
      rcases hrecv : ch.recv c with ⟨chunk | e | e, d⟩ <;> rw [hrecv] at h <;> dsimp only at h
      · split at h
        · rename_i hdone
          cases h
          exact ⟨[], c, .nil, hgo, Or.inl ⟨chunk, hrecv, by simp, hdone⟩⟩
        rename_i hdone
        split at h
        · cases h
        rename_i hlen
        obtain ⟨rs, f, hgets, hon, hend⟩ := ih h
        refine ⟨chunk :: rs, f, .cons hrecv hgets,
          hon.cons (Bool.eq_false_iff.mpr hdone) (Nat.le_of_not_gt hlen), ?_⟩
        rw [List.flatten_cons, ← List.append_assoc]
        exact hend
      · cases h
        exact ⟨[], c, .nil, hgo, Or.inr (Or.inl ⟨e, hrecv, hnil⟩)⟩
      · split at h
        · rename_i hne
          cases h
          exact ⟨[], c, .nil, hgo, Or.inr (Or.inr ⟨e, hrecv, hnil, hne⟩)⟩
        · cases h

/-! ### How a reply ends -/

/-- What `recv` fails with while the firmware is silent. -/
def silence : Stop := .failed "timed out waiting for data"

/-- The command has been sent, and `c₁` is the client after that. -/
def Sent (ch : Channel C) (c : C) (user pass body : List UInt8) (c₁ : C) : Prop :=
  ∃ c₀, ch.send c ribclProlog = (.ok (), c₀) ∧
    ch.send c₀ (ribclDocument user pass body) = (.ok (), c₁)

/-- The reply is `raw`, and it ended with the stop marker, with the end of the stream or with
silence after some data. -/
def EndedWell (ch : Channel C) (done : List UInt8 → Bool) (c : C) (raw : List UInt8) : Prop :=
  ∃ rs c', Gets ch c rs c' ∧ raw = rs.flatten ∧
    (done raw = true ∨ (∃ e, (ch.recv c').1 = .closed e) ∨
      ((ch.recv c').1 = .failed silence ∧ raw ≠ []))

/-- The reply is cut off: while the loop waits for more, `recv` fails, and not for silence. -/
def Broken (ch : Channel C) (done : List UInt8 → Bool) (c : C) (rs : List (List UInt8))
    (e : Stop) : Prop :=
  ∃ c', Gets ch c rs c' ∧ GoesOn done [] rs ∧ (ch.recv c').1 = .failed e ∧ e ≠ silence

/-- What is expected of an exchange. -/
structure TellsFailure (ch : Channel C) (c : C) (user pass body : List UInt8)
    (done : List UInt8 → Bool) : Prop where
  /-- Success means that the reply ended as it should. -/
  ended : ∀ calls raw c', ribclExchange ch calls c user pass body done = (.ok raw, c') →
    ∃ c₁, Sent ch c user pass body c₁ ∧ EndedWell ch done c₁ raw
  /-- A failure is passed on, however much data came before it. -/
  failed : ∀ c₁ rs e, Sent ch c user pass body c₁ → Broken ch done c₁ rs e →
    ∀ calls, (ribclExchange ch (calls + 1 + rs.length) c user pass body done).1 = .error e

/-- The defect: data, and then such a failure. -/
def CutOff (ch : Channel C) (done : List UInt8 → Bool) (c : C) : Prop :=
  ∃ rs e, rs.flatten ≠ [] ∧ Broken ch done c rs e

theorem Sent.unique {user pass body : List UInt8} {c₂ : C} (h : Sent ch c user pass body c₁)
    (g : Sent ch c user pass body c₂) : c₁ = c₂ := by
  obtain ⟨c₀, hprolog, hdocument⟩ := h
  obtain ⟨c₀', hprolog', hdocument'⟩ := g
  rw [hprolog] at hprolog'
  cases hprolog'
  rw [hdocument] at hdocument'
  cases hdocument'
  rfl

theorem ribclExchange_eq {user pass body : List UInt8} (h : Sent ch c user pass body c₁) :
    ribclExchange ch calls c user pass body done = exchangeLoop ch done calls [] c₁ := by
  obtain ⟨c₀, hprolog, hdocument⟩ := h
  rw [ribclExchange, hprolog]
  dsimp only
  rw [hdocument]

theorem ribclExchange_ok {user pass body : List UInt8}
    (h : ribclExchange ch calls c user pass body done = (.ok raw, c')) :
    ∃ c₁, Sent ch c user pass body c₁ ∧ exchangeLoop ch done calls [] c₁ = (.ok raw, c') := by
  unfold ribclExchange at h
  rcases hprolog : ch.send c ribclProlog with ⟨e | ⟨⟩, c₀⟩ <;> rw [hprolog] at h
  · cases h
  dsimp only at h
  rcases hdocument : ch.send c₀ (ribclDocument user pass body) with ⟨e | ⟨⟩, c₁⟩ <;>
    rw [hdocument] at h
  · cases h
  exact ⟨c₁, ⟨c₀, hprolog, hdocument⟩, h⟩

/-- The exchange ends at a failure: with it, or without it if some data came before. -/
theorem ribclExchange_broken {user pass body : List UInt8} {e : Stop}
    (hsent : Sent ch c user pass body c₁) (h : Broken ch done c₁ rs e) (calls : Nat) :
    (ribclExchange ch (calls + 1 + rs.length) c user pass body done).1 =
      if rs.flatten ≠ [] then .ok rs.flatten else .error e := by
  obtain ⟨d, hgets, hgo, hfail, -⟩ := h
  rw [ribclExchange_eq hsent, exchangeLoop_gets hgets hgo, exchangeLoop, List.nil_append]
  rcases hrecv : ch.recv d with ⟨o, d'⟩
  rw [hrecv] at hfail
  cases hfail
  dsimp only
  split <;> rfl

/-- Without the defect, an exchange that succeeds has ended as it should. -/
theorem endedWell_of_ok (hnot : ¬ CutOff ch done c)
    (h : exchangeLoop ch done calls [] c = (.ok raw, c')) : EndedWell ch done c raw := by
  obtain ⟨rs, d, hgets, hgo, hend⟩ := exchangeLoop_ok h
  rcases hend with ⟨bs, hrecv, rfl, hdone⟩ | ⟨e, hrecv, rfl⟩ | ⟨e, hrecv, rfl, hne⟩
  · exact ⟨rs ++ [bs], c', hgets.append (.cons hrecv .nil), by simp, Or.inl hdone⟩
  · exact ⟨rs, d, hgets, List.nil_append _, Or.inr (Or.inl ⟨e, by rw [hrecv]⟩)⟩
  · rw [List.nil_append] at hne
    refine ⟨rs, d, hgets, List.nil_append _, Or.inr (Or.inr ⟨?_, by simpa using hne⟩)⟩
    rw [hrecv]
    by_contra hsilent
    exact hnot ⟨rs, e, hne, d, hgets, hgo, by rw [hrecv], fun h => hsilent (by rw [h])⟩

/-- With it, the failure is not told. -/
theorem CutOff.not_tellsFailure {user pass body : List UInt8} (h : CutOff ch done c₁)
    (hsent : Sent ch c user pass body c₁) : ¬ TellsFailure ch c user pass body done := by
  obtain ⟨rs, e, hne, hbroken⟩ := h
  intro htells
  have hfail := htells.failed c₁ rs e hsent hbroken 0
  rw [ribclExchange_broken hsent hbroken, if_pos hne] at hfail
  cases hfail

/-- **An exchange tells every failure**, exactly if none but silence follows some data.  A
write whose reply was cut off is then never reported. -/
theorem exchange_ends_iff (ch : Channel C) (c : C) (user pass : List UInt8) :
    (∀ body done, TellsFailure ch c user pass body done ↔
      ∀ c₁, Sent ch c user pass body c₁ → ¬ CutOff ch done c₁) ∧
    ∀ cmd args, ribclIsWrite cmd = true →
      (∀ c₁, Sent ch c user pass (ribclBody cmd args) c₁ → ¬ CutOff ch ribclReplyComplete c₁) →
      ∀ calls reply, ribclRun ch calls (.ok c) user pass cmd args = .ok reply →
        ∃ c₁, Sent ch c user pass (ribclBody cmd args) c₁ ∧
          EndedWell ch ribclReplyComplete c₁ reply.raw := by
  refine ⟨fun body done =>
    ⟨fun htells c₁ hsent hcut => hcut.not_tellsFailure hsent htells, fun hnot => ⟨?_, ?_⟩⟩, ?_⟩
  · intro calls raw c' h
    obtain ⟨c₁, hsent, hloop⟩ := ribclExchange_ok h
    exact ⟨c₁, hsent, endedWell_of_ok (hnot c₁ hsent) hloop⟩
  · intro c₁ rs e hsent hbroken calls
    rw [ribclExchange_broken hsent hbroken, if_neg]
    exact fun hne => hnot c₁ hsent ⟨rs, e, hne, hbroken⟩
  · intro cmd args _ hnot calls reply h
    unfold ribclRun at h
    dsimp only at h
    split at h
    · cases h
    · rename_i raw c' hex
      split at h
      · cases h
      · cases h
        obtain ⟨c₁, hsent, hloop⟩ := ribclExchange_ok hex
        exact ⟨c₁, hsent, endedWell_of_ok (hnot c₁ hsent) hloop⟩

/-- How the firmware starts a document without an error. -/
def documentHead : List UInt8 :=
  ascii "<?xml version=\"1.0\"?>\r\n" ++ ascii "<RIBCL VERSION=\"2.22\">\r\n" ++
    ascii "<RESPONSE\r\n" ++ ascii "    STATUS=\"0x0000\"\r\n" ++
    ascii "    MESSAGE='No error'\r\n" ++ ascii "     />\r\n"

/-- The first document of the reply to a write; the rest of it never arrives. -/
def partialReply : List UInt8 := documentHead ++ ascii "</RIBCL>\r\n"

/-- A UID write whose reply breaks off with a record that was tampered with: the exchange
succeeds, and the write is reported. -/
theorem uidOn_cut_off :
    ¬ TellsFailure (Channel.script (.failed (.failed "record failed authentication (bad_record_mac)")))
        [partialReply] [] [] (ribclBody .uidOn {}) ribclReplyComplete ∧
    ∃ reply, ribclRun
        (Channel.script (.failed (.failed "record failed authentication (bad_record_mac)"))) 2
        (.ok [partialReply]) [] [] .uidOn {} = .ok reply ∧ reply.ok = true := by
  have hgo : GoesOn ribclReplyComplete [] [partialReply] :=
    GoesOn.cons (fun p hp hne => absurd (List.prefix_nil.mp hp) hne) (by decide +kernel)
      (by decide +kernel)
  constructor
  · exact CutOff.not_tellsFailure ⟨[partialReply], _, by decide +kernel, _, Channel.script_gets _,
      hgo, rfl, by decide⟩ ⟨_, rfl, rfl⟩
  · exact ⟨ribclParse partialReply, by decide +kernel, by decide +kernel⟩

end Ilo2.Ribcl
