import Ilo2.Lib.Scan
import Ilo2.Lib.Text
import Ilo2.Tls.Prf

/-!
# Recent connections

`connections.hpp`: the list of recently used iLOs, its text, and the two ways to change it.

* `parse_ok`, `remember_ok` - the loops end, and what they return.
* `parse_format` - a list of entries that can be written is read back.
* `list_survives_saving` - **so is every list that comes from a file and is changed**.
-/

namespace Ilo2.Ui

open Scan Text Checked
open Tls (ascii)

structure SavedConnection where
  host : List UInt8 := []
  user : List UInt8 := []
deriving DecidableEq

def MAX_SAVED_CONNECTIONS : Nat := 10

def CR : UInt8 := 0x0D
def LF : UInt8 := 0x0A
def TAB : UInt8 := 0x09

/-! ### The text -/

/-- A line without the carriage return at its end. -/
def chomp (row : List UInt8) : List UInt8 :=
  if row.getLast? = some CR then row.dropLast else row

/-- The two fields of a line. -/
def fields (row : List UInt8) : SavedConnection :=
  match find [TAB] row with
  | none => { host := row }
  | some tab => { host := row.take tab, user := row.drop (tab + 1) }

/-- What `parse_connections` makes of a line; nothing, if it is passed over. -/
def parseLine (row : List UInt8) : Option SavedConnection :=
  let row := chomp row
  if row = [] ∨ row.head? = some 0x23 then none
  else
    let c := fields row
    if c.host = [] then none else some c

/-- The body of the loop of `parse_connections`: the position, and `out`. -/
def parseRound (text : List UInt8) (st : Nat × List SavedConnection) :
    Except Fault (Round (Nat × List SavedConnection) (List SavedConnection)) :=
  if ¬ st.1 < text.length then .ok (.done st.2)
  else do
    let nl := (findFrom [LF] text st.1).getD text.length
    let row ← substr text st.1 (nl - st.1)
    match parseLine row with
    | none => .ok (.next (nl + 1, st.2))
    | some c =>
        let out := st.2 ++ [c]
        if out.length ≥ MAX_SAVED_CONNECTIONS then .ok (.done out) else .ok (.next (nl + 1, out))

/-- `parse_connections`. -/
def parseConnections (text : List UInt8) : Except Fault (List SavedConnection) :=
  loop .rounds (parseRound text) (text.length + 1) (0, [])

def SavedConnection.format (c : SavedConnection) : List UInt8 := c.host ++ TAB :: c.user

/-- `format_connections`. -/
def formatConnections (list : List SavedConnection) : List UInt8 :=
  ascii "# ilo2ctl: recent connections, most recent first. host<TAB>user" ++
    LF :: list.flatMap fun c => c.format ++ [LF]

/-! ### Changes -/

/-- The body of the loop of `remember_connection`: the iterator, and the list. -/
def eraseRound (c : SavedConnection) (st : Nat × List SavedConnection) :
    Except Fault (Round (Nat × List SavedConnection) (List SavedConnection)) :=
  if st.1 = st.2.length then .ok (.done st.2)
  else do
    let it ← charAt st.2 st.1
    if it = c then .ok (.next (st.1, st.2.eraseIdx st.1)) else .ok (.next (st.1 + 1, st.2))

/-- `remember_connection`. -/
def rememberConnection (list : List SavedConnection) (host user : List UInt8) :
    Except Fault (List SavedConnection) := do
  let c : SavedConnection := { host := host, user := user }
  let list ← loop .rounds (eraseRound c) (list.length + 1) (0, list)
  let list := c :: list
  .ok (if list.length > MAX_SAVED_CONNECTIONS then list.take MAX_SAVED_CONNECTIONS else list)

/-- `forget_connection`. -/
def forgetConnection (list : List SavedConnection) (index : Nat) : List SavedConnection :=
  if index < list.length then list.eraseIdx index else list

inductive Change where
  | remember (host user : List UInt8)
  | forget (index : Nat)
deriving DecidableEq

def Change.apply (list : List SavedConnection) : Change → Except Fault (List SavedConnection)
  | .remember host user => rememberConnection list host user
  | .forget index => .ok (forgetConnection list index)

/-! ### What can be written -/

structure SavedConnection.Plain (c : SavedConnection) : Prop where
  host_ne : c.host ≠ []
  host_head : c.host.head? ≠ some 0x23
  host_tab : TAB ∉ c.host
  host_cr : CR ∉ c.host
  host_lf : LF ∉ c.host
  user_cr : CR ∉ c.user
  user_lf : LF ∉ c.user

/-- A change that only remembers what can be written. -/
def Change.Plain : Change → Prop
  | .remember host user => SavedConnection.Plain { host := host, user := user }
  | .forget _ => True

variable {c : SavedConnection} {row text : List UInt8} {list : List SavedConnection}

theorem fields_tab {host : List UInt8} (h : TAB ∉ host) (user : List UInt8) :
    fields (host ++ TAB :: user) = { host := host, user := user } := by
  rw [fields, find_singleton h]
  dsimp only
  rw [List.take_left, ← List.drop_drop, List.drop_left]
  rfl

theorem fields_no_tab (h : TAB ∉ row) : fields row = { host := row } := by
  rw [fields, find_singleton_none h]

/-- A line is read back. -/
theorem parseLine_format (h : c.Plain) : parseLine c.format = some c := by
  obtain ⟨x, host, hhost⟩ := List.exists_cons_of_ne_nil h.host_ne
  have hlast : c.format.getLast? ≠ some CR := by
    intro hcr
    have hmem := List.mem_of_getLast? hcr
    rw [SavedConnection.format, List.mem_append, List.mem_cons] at hmem
    rcases hmem with hmem | hmem | hmem
    · exact h.host_cr hmem
    · exact absurd hmem (by decide)
    · exact h.user_cr hmem
  have hhead : c.format.head? = c.host.head? := by
    rw [SavedConnection.format, hhost]
    rfl
  have hne : c.format ≠ [] := by
    rw [SavedConnection.format, hhost]
    exact List.cons_ne_nil _ _
  have hfields : fields c.format = c := fields_tab h.host_tab c.user
  rw [parseLine, chomp, if_neg hlast]
  dsimp only
  rw [if_neg (by rw [hhead]; exact not_or.mpr ⟨hne, h.host_head⟩), hfields, if_neg h.host_ne]

/-- A carriage return stands at the end of a line, or not at all. -/
theorem cr_not_mem_chomp (h : ∀ i, row[i]? = some CR → i + 1 = row.length) : CR ∉ chomp row := by
  intro hmem
  obtain ⟨i, hi⟩ := List.mem_iff_getElem?.mp hmem
  rw [chomp] at hi
  split at hi
  · rw [List.getElem?_dropLast] at hi
    split at hi
    · have := h i hi
      omega
    · cases hi
  · rename_i hlast
    apply hlast
    rw [List.getLast?_eq_getElem?, ← hi]
    congr 1
    have := h i hi
    omega

theorem parseLine_plain (hlf : LF ∉ row) (hcr : ∀ i, row[i]? = some CR → i + 1 = row.length)
    (h : parseLine row = some c) : c.Plain := by
  have hcr := cr_not_mem_chomp hcr
  have hlf : LF ∉ chomp row := by
    rw [chomp]
    split
    · exact fun hmem => hlf ((List.dropLast_sublist row).mem hmem)
    · exact hlf
  rw [parseLine] at h
  generalize chomp row = l at h hcr hlf
  dsimp only at h
  split at h
  · cases h
  · rename_i hskip
    obtain ⟨hne, hhead⟩ := not_or.mp hskip
    rcases find_singleton_cases TAB l with ⟨htab, -⟩ | ⟨host, user, rfl, htab, -⟩
    · rw [fields_no_tab htab, if_neg hne] at h
      cases h
      exact ⟨hne, hhead, htab, hcr, hlf, List.not_mem_nil, List.not_mem_nil⟩
    · rw [fields_tab htab] at h
      split at h
      · cases h
      · rename_i hhost
        cases h
        rw [List.mem_append, List.mem_cons, not_or, not_or] at hcr hlf
        obtain ⟨x, host, rfl⟩ := List.exists_cons_of_ne_nil hhost
        exact ⟨hhost, hhead, htab, hcr.1, hlf.1, hcr.2.2, hlf.2.2⟩

/-! ### Reading -/

/-- The entries of a text, without the cap. -/
def entries (text : List UInt8) : List SavedConnection := (text.splitOn LF).filterMap parseLine

theorem entries_last (h : LF ∉ row) : entries row = (parseLine row).toList := by
  rw [entries, List.splitOn_eq_singleton h, List.filterMap_cons]
  cases parseLine row with
  | none => rfl
  | some c => rfl

theorem entries_line (h : LF ∉ row) (text : List UInt8) :
    entries (row ++ LF :: text) = (parseLine row).toList ++ entries text := by
  rw [entries, List.splitOn_append_cons_self_of_not_mem h, List.filterMap_cons]
  cases parseLine row with
  | none => rfl
  | some c => rfl

theorem entries_nil : entries [] = [] := entries_last List.not_mem_nil

/-- **A text whose carriage returns all stand before a line feed** has entries that can be
written. -/
theorem entries_plain (hcr : ∀ i, text[i]? = some CR → text[i + 1]? = some LF) :
    ∀ c ∈ entries text, c.Plain := by
  induction text using line_induction LF with
  | hlast row hlf =>
      intro c hc
      rw [entries_last hlf, Option.mem_toList] at hc
      refine parseLine_plain hlf (fun i hi => ?_) hc
      exact absurd (List.mem_of_getElem? (hcr i hi)) hlf
  | hline row text hlf ih =>
      intro c hc
      rw [entries_line hlf, List.mem_append, Option.mem_toList] at hc
      rcases hc with hc | hc
      · refine parseLine_plain hlf (fun i hi => ?_) hc
        have hlt := (List.getElem?_eq_some_iff.mp hi).1
        have hnext := hcr i (by rw [List.getElem?_append_left hlt, hi])
        by_cases hend : i + 1 < row.length
        · rw [List.getElem?_append_left hend] at hnext
          exact absurd (List.mem_of_getElem? hnext) hlf
        · omega
      · have hskip (i : Nat) : (row ++ LF :: text)[row.length + 1 + i]? = text[i]? := by
          rw [List.getElem?_append_right (by omega), Nat.add_assoc, Nat.add_sub_cancel_left,
            Nat.add_comm, List.getElem?_cons_succ]
        refine ih (fun i hi => ?_) c hc
        rw [← hskip]
        exact hcr _ ((hskip i).trans hi)

/-- The line at a position, and what is behind it. -/
theorem line_at {pos : Nat} (hpos : pos < text.length) : ∃ row nl,
    (findFrom [LF] text pos).getD text.length = nl ∧ pos ≤ nl ∧
    substr text pos (nl - pos) = .ok row ∧
    entries (text.drop pos) = (parseLine row).toList ++ entries (text.drop (nl + 1)) := by
  rcases find_singleton_cases LF (text.drop pos) with ⟨hlf, hfind⟩ | ⟨row, rest, hdrop, hlf, hfind⟩
  · refine ⟨_, text.length, by rw [findFrom, hfind]; rfl, Nat.le_of_lt hpos,
      if_pos (Nat.le_of_lt hpos), ?_⟩
    rw [List.drop_eq_nil_of_le (Nat.le_succ _), entries_nil, List.append_nil,
      List.take_of_length_le (Nat.le_of_eq List.length_drop)]
    exact entries_last hlf
  · refine ⟨row, pos + row.length, by rw [findFrom, hfind]; rfl, Nat.le_add_right _ _, ?_, ?_⟩
    · rw [substr, if_pos (Nat.le_of_lt hpos), Nat.add_sub_cancel_left, hdrop, List.take_left]
    · rw [Nat.add_assoc, ← List.drop_drop, hdrop, ← List.drop_drop, List.drop_left]
      exact entries_line hlf rest

/-- What is to come of a state: the rest of the text, up to the cap. -/
def Reading (text : List UInt8) (st : Nat × List SavedConnection) (r : List SavedConnection) :
    Prop :=
  r = (st.2 ++ entries (text.drop st.1)).take MAX_SAVED_CONNECTIONS

/-- A round reads one line. -/
theorem parseRound_good (text : List UInt8) (st : Nat × List SavedConnection)
    (hst : st.2.length < MAX_SAVED_CONNECTIONS) : ∃ t, parseRound text st = .ok t ∧
      Round.Good (fun st => st.2.length < MAX_SAVED_CONNECTIONS) (fun st => text.length - st.1)
        (Reading text) st t := by
  obtain ⟨pos, out⟩ := st
  dsimp only at hst
  rw [parseRound]
  by_cases hpos : pos < text.length
  case neg =>
    refine ⟨_, if_pos hpos, .done ?_⟩
    rw [Reading, List.drop_eq_nil_of_le (Nat.le_of_not_lt hpos), entries_nil, List.append_nil,
      List.take_of_length_le (Nat.le_of_lt hst)]
  obtain ⟨row, nl, hnl, hle, hsubstr, hentries⟩ := line_at hpos
  rw [if_neg (not_not.mpr hpos), hnl]
  dsimp only
  rw [hsubstr, ok_bind]
  cases hc : parseLine row with
  | none =>
      rw [hc, Option.toList_none, List.nil_append] at hentries
      refine ⟨_, rfl, .next hst (by dsimp only; omega) fun r hr => ?_⟩
      rw [Reading, hentries]
      exact hr
  | some c =>
      rw [hc, Option.toList_some] at hentries
      dsimp only
      by_cases hfull : (out ++ [c]).length ≥ MAX_SAVED_CONNECTIONS
      · refine ⟨_, if_pos hfull, .done ?_⟩
        rw [Reading, hentries]
        dsimp only
        rw [← List.append_assoc, List.take_append_of_le_length hfull, List.take_of_length_le]
        rw [List.length_append, List.length_singleton]
        exact hst
      · refine ⟨_, if_neg hfull, .next (Nat.lt_of_not_le hfull) (by dsimp only; omega)
          fun r hr => ?_⟩
        rw [Reading, hentries, ← List.append_assoc]
        exact hr

/-- **What is read from a text**: its entries, up to the cap. -/
theorem parse_ok (text : List UInt8) :
    parseConnections text = .ok ((entries text).take MAX_SAVED_CONNECTIONS) := by
  obtain ⟨r, hloop, hr⟩ := loop_ok Fault.rounds _ _ _
    (fun st hst => parseRound_good text st hst) (text.length + 1) (s := (0, []))
    (show 0 < MAX_SAVED_CONNECTIONS by decide) (by dsimp only; omega)
  rw [parseConnections, hloop, hr]
  rfl

theorem entries_format (h : ∀ c ∈ list, c.Plain) : entries (formatConnections list) = list := by
  have hheader : LF ∉ ascii "# ilo2ctl: recent connections, most recent first. host<TAB>user" := by
    decide
  have hskip : parseLine (ascii "# ilo2ctl: recent connections, most recent first. host<TAB>user") =
      none := by decide
  rw [formatConnections, entries_line hheader, hskip, Option.toList_none, List.nil_append]
  induction list with
  | nil => exact entries_nil
  | cons c list ih =>
      have hc := h c List.mem_cons_self
      have hlf : LF ∉ c.format := by
        rw [SavedConnection.format, List.mem_append, List.mem_cons, not_or, not_or]
        exact ⟨hc.host_lf, by decide, hc.user_lf⟩
      rw [List.flatMap_cons, List.append_assoc, List.singleton_append, entries_line hlf,
        parseLine_format hc, Option.toList_some, ih fun d hd => h d (List.mem_cons_of_mem c hd)]
      rfl

/-- **A list that can be written is read back.** -/
theorem parse_format (h : ∀ c ∈ list, c.Plain) (hlen : list.length ≤ MAX_SAVED_CONNECTIONS) :
    parseConnections (formatConnections list) = .ok list := by
  rw [parse_ok, entries_format h, List.take_of_length_le hlen]

/-! ### Changing -/

theorem eraseRound_good (c : SavedConnection) (st : Nat × List SavedConnection)
    (hst : st.1 ≤ st.2.length) : ∃ t, eraseRound c st = .ok t ∧
      Round.Good (fun st => st.1 ≤ st.2.length) (fun st => st.2.length - st.1)
        (fun st r => r = st.2.take st.1 ++ (st.2.drop st.1).filter (· ≠ c)) st t := by
  obtain ⟨i, l⟩ := st
  dsimp only at hst
  rw [eraseRound]
  by_cases hend : i = l.length
  case pos =>
    refine ⟨_, if_pos hend, .done ?_⟩
    rw [hend, List.take_length, List.drop_length]
    exact (List.append_nil l).symm
  have hlt : i < l.length := by omega
  rw [if_neg hend, charAt_of_lt hlt, ok_bind]
  have hdrop : l.drop i = l[i] :: l.drop (i + 1) := List.drop_eq_getElem_cons hlt
  by_cases hc : l[i] = c
  · have herase : l.eraseIdx i = l.take i ++ l.drop (i + 1) := List.eraseIdx_eq_take_drop_succ l i
    have htake : (l.take i).length = i := List.length_take_of_le hst
    have hlen : (l.eraseIdx i).length + 1 = l.length := by
      rw [List.length_eraseIdx_of_lt hlt]
      omega
    refine ⟨_, if_pos hc, .next (by dsimp only; omega) (by dsimp only; omega) fun r hr => ?_⟩
    dsimp only at hr ⊢
    rw [hr, herase, List.take_left' htake, List.drop_left' htake, hdrop,
      List.filter_cons_of_neg (by simpa using hc)]
  · refine ⟨_, if_neg hc, .next hlt (by dsimp only; omega) fun r hr => ?_⟩
    dsimp only at hr ⊢
    rw [hr, hdrop, List.filter_cons_of_pos (by simpa using hc), List.take_succ_eq_append_getElem hlt,
      List.append_assoc, List.singleton_append]

/-- **The pair comes first**, every other copy of it goes, and the rest stays in order, up to the
cap. -/
theorem remember_ok (list : List SavedConnection) (host user : List UInt8) :
    rememberConnection list host user = .ok ({ host := host, user := user } ::
      (list.filter (· ≠ { host := host, user := user })).take (MAX_SAVED_CONNECTIONS - 1)) := by
  obtain ⟨r, hloop, hr⟩ := loop_ok Fault.rounds _ _ _
    (fun st hst => eraseRound_good { host := host, user := user } st hst) (list.length + 1)
    (s := (0, list)) (Nat.zero_le _) (by dsimp only; omega)
  rw [rememberConnection]
  dsimp only
  rw [hloop, ok_bind, hr]
  dsimp only
  rw [List.take_zero, List.nil_append, List.drop_zero]
  split
  · rfl
  · rename_i hlen
    rw [List.length_cons] at hlen
    rw [List.take_of_length_le]
    omega

theorem forget_sublist (list : List SavedConnection) (index : Nat) :
    (forgetConnection list index).Sublist list := by
  rw [forgetConnection]
  split
  · exact List.eraseIdx_sublist list index
  · exact List.Sublist.refl list

/-- What every list satisfies: it can be written, and it keeps to the cap. -/
structure Saved (list : List SavedConnection) : Prop where
  plain : ∀ c ∈ list, c.Plain
  length_le : list.length ≤ MAX_SAVED_CONNECTIONS

theorem Saved.sublist {list' : List SavedConnection} (h : Saved list)
    (hsub : list'.Sublist list) : Saved list' :=
  ⟨fun c hc => h.plain c (hsub.mem hc), Nat.le_trans hsub.length_le h.length_le⟩

theorem saved_parse (hcr : ∀ i, text[i]? = some CR → text[i + 1]? = some LF) :
    Saved ((entries text).take MAX_SAVED_CONNECTIONS) :=
  ⟨fun c hc => entries_plain hcr c (List.mem_of_mem_take hc), List.length_take_le _ _⟩

theorem Saved.apply (h : Saved list) {change : Change} (hchange : change.Plain) :
    ∃ list', change.apply list = .ok list' ∧ Saved list' := by
  cases change with
  | remember host user =>
      refine ⟨_, remember_ok list host user, fun c hc => ?_, ?_⟩
      · rcases List.mem_cons.mp hc with rfl | hc
        · exact hchange
        · exact h.plain c (List.mem_of_mem_filter (List.mem_of_mem_take hc))
      · rw [List.length_cons]
        exact Nat.succ_le_succ (List.length_take_le _ _)
  | forget index => exact ⟨_, rfl, h.sublist (forget_sublist list index)⟩

theorem Saved.changes : ∀ {changes : List Change} {list : List SavedConnection}, Saved list →
    (∀ change ∈ changes, change.Plain) →
    ∃ list', changes.foldlM Change.apply list = .ok list' ∧ Saved list' := by
  intro changes
  induction changes with
  | nil => intro list h _; exact ⟨list, rfl, h⟩
  | cons change changes ih =>
      intro list h hplain
      obtain ⟨list₁, happly, h₁⟩ := h.apply (hplain change List.mem_cons_self)
      obtain ⟨list₂, hrest, h₂⟩ := ih h₁ fun c hc => hplain c (List.mem_cons_of_mem change hc)
      exact ⟨list₂, by rw [List.foldlM_cons, happly, ok_bind, hrest], h₂⟩

/-- **Every list that comes from a file and is changed** keeps to the cap and is read back after
it was written, whatever the file, as long as its carriage returns are parts of line ends. -/
theorem list_survives_saving {text : List UInt8}
    (hcr : ∀ i, text[i]? = some CR → text[i + 1]? = some LF) {changes : List Change}
    (hplain : ∀ change ∈ changes, change.Plain) :
    ∃ start list, parseConnections text = .ok start ∧
      changes.foldlM Change.apply start = .ok list ∧ list.length ≤ 10 ∧
      parseConnections (formatConnections list) = .ok list ∧
      ∀ host user, rememberConnection list host user = .ok ({ host := host, user := user } ::
        (list.filter (· ≠ { host := host, user := user })).take 9) := by
  obtain ⟨list, hchanges, hsaved⟩ := (saved_parse hcr).changes hplain
  exact ⟨_, list, parse_ok text, hchanges, hsaved.length_le,
    parse_format hsaved.plain hsaved.length_le, fun host user => remember_ok list host user⟩

/-- A file with a carriage return, a comment, and a user with a tab. -/
theorem list_survives_saving_tabs : ∃ start list,
    parseConnections (ascii "a\tb\tc\r\n#d\n") = .ok start ∧
      [Change.remember (ascii "e") [], .forget 7].foldlM Change.apply start = .ok list ∧
      list = [⟨ascii "e", []⟩, ⟨ascii "a", ascii "b\tc"⟩] ∧
      parseConnections (formatConnections list) = .ok list := by
  have hcr : ∀ i, (ascii "a\tb\tc\r\n#d\n")[i]? = some CR →
      (ascii "a\tb\tc\r\n#d\n")[i + 1]? = some LF := by
    intro i hi
    have hlt := (List.getElem?_eq_some_iff.mp hi).1
    have hall : ∀ i < 10, (ascii "a\tb\tc\r\n#d\n")[i]? = some CR →
        (ascii "a\tb\tc\r\n#d\n")[i + 1]? = some LF := by decide
    exact hall i hlt hi
  have hplain : ∀ change ∈ [Change.remember (ascii "e") [], .forget 7], change.Plain := by
    intro change hchange
    rcases List.mem_pair.mp hchange with rfl | rfl
    · exact ⟨by decide, by decide, by decide, by decide, by decide, by decide, by decide⟩
    · exact trivial
  obtain ⟨start, list, hparse, hchanges, -, hback, -⟩ := list_survives_saving hcr hplain
  refine ⟨start, list, hparse, hchanges, ?_, hback⟩
  have hstart : parseConnections (ascii "a\tb\tc\r\n#d\n") =
      .ok [⟨ascii "a", ascii "b\tc"⟩] := by rfl
  rw [hstart] at hparse
  cases hparse
  have hlist : [Change.remember (ascii "e") [], .forget 7].foldlM Change.apply
      [⟨ascii "a", ascii "b\tc"⟩] = .ok [⟨ascii "e", []⟩, ⟨ascii "a", ascii "b\tc"⟩] := by rfl
  rw [hlist] at hchanges
  cases hchanges
  rfl

end Ilo2.Ui
