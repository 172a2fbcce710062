import EventRules.CommandLine
import EventRules.Proofs.Exchange.Lines
import EventRules.Proofs.Json.Printing
import EventRules.Proofs.Lowering.Bounds
import EventRules.Proofs.Matching.Selection

/-!
# Checking a report again

The report of a check spells each event with its verdict. Read as events, it gives the events that were
checked: every field has its default filled in, and the verdicts are not looked at. So the same rule
gives the same report on it.
-/

namespace EventRules
set_option autoImplicit false

open Number CommandLine

/-! ### Events in a report -/

theorem Event.toJson_eq (e : Event) : e.toJson = .object
    [("id", .text e.id), ("timestamp", .integer e.timestamp.toInt), ("value", e.value.toJson)] := by
  rw [Event.toJson, Json.ofMembers, List.foldl_cons, List.foldl_cons, List.foldl_cons, List.foldl_nil]
  dsimp only
  rw [Json.insert, Json.insert, if_neg (by decide), if_neg (by decide), Json.insert, Json.insert,
    if_neg (by decide), if_neg (by decide), Json.insert, if_pos (by decide)]

theorem CheckedEvent.toJson_eq (c : CheckedEvent) : c.toJson = .object
    [("id", .text c.event.id), ("matched", .boolean c.holds),
      ("timestamp", .integer c.event.timestamp.toInt), ("value", c.event.value.toJson)] := by
  rw [CheckedEvent.toJson, Event.toJson_eq]
  dsimp only
  rw [Json.insert, if_neg (by decide), if_neg (by decide), Json.insert, if_pos (by decide)]

/-- No float outside the numbers. -/
def Value.Finite (v : Value) : Prop := ∀ x, v = .float x → x.isFinite = true

theorem Value.ofJson_toJson {v : Value} (h : v.Finite) : Value.ofJson v.toJson = .ok v := by
  cases v with
  | null => rfl
  | boolean b => rfl
  | integer n =>
    have hfits : fit64? n.toInt = some n := fit64_eq_some_iff.mpr rfl
    rw [Value.toJson, Value.ofJson, hfits]
  | float x =>
    rw [Value.toJson, if_pos (h x rfl)]
    rfl
  | text s => rfl

/-- The event of a row is read from it, wherever the row stands. -/
theorem CheckedEvent.ofJson_toJson {c : CheckedEvent} (h : c.event.value.Finite) (index : Nat) :
    Event.ofJson index c.toJson = .ok c.event := by
  have hfits : fit64? c.event.timestamp.toInt = some c.event.timestamp := fit64_eq_some_iff.mpr rfl
  rw [CheckedEvent.toJson_eq]
  simp [Event.ofJson, List.lookup, Event.timestampOfJson, hfits, Event.idOfJson, Value.ofJson_toJson h]
  rfl

theorem of_rows {rows : List CheckedEvent} (h : ∀ row ∈ rows, row.event.value.Finite) (index : Nat) :
    Event.ofJsons index (rows.map CheckedEvent.toJson) = .ok (rows.map CheckedEvent.event) := by
  induction rows generalizing index with
  | nil => rfl
  | cons row rows ih =>
    obtain ⟨hrow, hrows⟩ := List.forall_mem_cons.mp h
    rw [List.map_cons, Event.ofJsons, CheckedEvent.ofJson_toJson hrow, ih hrows]
    rfl

/-! ### Events that were read -/

theorem Value.finite_ofJson {depth : Nat} {j : Json} (hj : j.Numeric depth) {v : Value}
    (h : Value.ofJson j = .ok v) : v.Finite := by
  rintro x rfl
  cases hj with
  | @integer _ n hlow hhigh =>
    rw [Value.ofJson] at h
    split at h
    · cases h
    · obtain rfl := Value.float.inj (Except.ok.inj h)
      apply isFinite_ofInt
      have hbound : n.natAbs ≤ 2 ^ 64 := by omega
      exact Nat.le_trans (log_le_of_le hbound) (by decide)
  | float hx =>
    obtain rfl := Value.float.inj (Except.ok.inj h)
    exact hx
  | null => cases h
  | boolean b => cases h
  | text s => cases h
  | array _ => cases h
  | object _ _ => cases h

theorem Event.finite_ofJson {depth : Nat} {j : Json} (hj : j.Numeric depth) {index : Nat} {e : Event}
    (h : Event.ofJson index j = .ok e) : e.value.Finite := by
  unfold Event.ofJson at h
  split at h
  · rename_i members
    cases hj with
    | object _ hmembers =>
      split at h
      · cases h
      · rename_i reading hreading
        obtain ⟨timestamp, -, h⟩ := ok_of_bind h
        obtain ⟨value, hvalue, h⟩ := ok_of_bind h
        obtain rfl := Except.ok.inj h
        obtain ⟨front, behind, hsplit, -⟩ := List.lookup_eq_some_iff.mp hreading
        have hmem : ("value", reading) ∈ members := by simp [hsplit]
        exact Value.finite_ofJson (hmembers _ hmem) hvalue
  · obtain ⟨value, hvalue, h⟩ := ok_of_bind h
    obtain rfl := Except.ok.inj h
    exact Value.finite_ofJson hj hvalue

theorem Event.finite_ofJsons {depth : Nat} {js : List Json} (hjs : ∀ j ∈ js, j.Numeric depth) {index : Nat}
    {events : List Event} (h : Event.ofJsons index js = .ok events) : ∀ e ∈ events, e.value.Finite := by
  induction js generalizing index events with
  | nil =>
    obtain rfl := Except.ok.inj h
    exact nofun
  | cons j js ih =>
    obtain ⟨hj, hjs⟩ := List.forall_mem_cons.mp hjs
    obtain ⟨event, hevent, h⟩ := ok_of_bind h
    obtain ⟨others, hothers, h⟩ := ok_of_bind h
    obtain rfl := Except.ok.inj h
    exact List.forall_mem_cons.mpr ⟨Event.finite_ofJson hj (ok_of_mapError hevent), ih hjs hothers⟩

theorem Event.finite_ofLines {lines : List (List Char)} {index : Nat} {events : List Event}
    (h : Event.ofLines index lines = .ok events) : ∀ e ∈ events, e.value.Finite := by
  induction lines generalizing index events with
  | nil =>
    obtain rfl := Except.ok.inj h
    exact nofun
  | cons line lines ih =>
    rw [Event.ofLines] at h
    split at h
    · cases h
    · rename_i j hj
      obtain ⟨event, hevent, h⟩ := ok_of_bind h
      obtain ⟨others, hothers, h⟩ := ok_of_bind h
      obtain rfl := Except.ok.inj h
      exact List.forall_mem_cons.mpr
        ⟨Event.finite_ofJson (Json.read_held hj) (ok_of_mapError hevent), ih hothers⟩

/-- No event that was read holds a float outside the numbers. -/
theorem Event.finite_of_read {text : String} {events : List Event} (h : Event.read text = .ok events) :
    ∀ e ∈ events, e.value.Finite := by
  unfold Event.read at h
  dsimp only at h
  split at h
  · cases h
  · split at h
    · rename_i items hread
      obtain ⟨depth, hitems⟩ := (Json.read_held hread).items
      exact Event.finite_ofJsons hitems h
    · rename_i j _ hread
      exact Event.finite_ofJsons (List.forall_mem_singleton.mpr (Json.read_held hread)) h
    · exact Event.finite_ofLines h

/-! ### The same report -/

theorem Matcher.check_events {m : Matcher} {events : List Event} {rows : List CheckedEvent}
    (h : m.check events = .ok rows) : rows.map CheckedEvent.event = events := by
  induction events generalizing m rows with
  | nil =>
    obtain rfl := Except.ok.inj h
    rfl
  | cons event events ih =>
    obtain ⟨holds, -, h⟩ := ok_of_bind h
    obtain ⟨others, hothers, h⟩ := ok_of_bind h
    obtain rfl := Except.ok.inj h
    rw [List.map_cons, ih hothers]

/-- A check that gives rows has read events, and the rows are about these. -/
theorem check_cases {request : CheckRequest} {rows : List CheckedEvent}
    (h : check request = .ok (.checked rows)) :
    ∃ text, request.events = some text ∧ Event.read text = .ok (rows.map CheckedEvent.event) := by
  unfold check at h
  dsimp only at h
  split at h
  · obtain ⟨_, -, h⟩ := ok_of_bind h
    cases h
  · obtain ⟨rule, -, h⟩ := ok_of_bind h
    split at h
    · cases h
    · split at h
      · cases h
      · rename_i text htext
        obtain ⟨events, hevents, h⟩ := ok_of_bind h
        obtain ⟨rows', hrows, h⟩ := ok_of_bind h
        obtain rfl := CheckReport.checked.inj (Except.ok.inj h)
        refine ⟨text, htext, ?_⟩
        rw [Matcher.check_events (ok_of_mapError hrows)]
        exact ok_of_mapError hevents

/-- A check looks at nothing but the events of its text. -/
theorem check_congr (request : CheckRequest) {text other : String} (h : Event.read text = Event.read other) :
    check { request with events := some text } = check { request with events := some other } := by
  simp only [check, h]

/-! ### Checking again -/

theorem Value.toJson_held {v : Value} (h : ∀ x, v = .float x → x.isFinite = true → Json.ReadBack x)
    (depth : Nat) : Json.Held Json.ReadBack depth v.toJson := by
  cases v with
  | null => exact .null
  | boolean b => exact .boolean b
  | integer n =>
    have hlow := Int64.le_toInt n
    have hhigh := Int64.toInt_lt n
    exact .integer (by omega) (by omega)
  | float x =>
    rw [Value.toJson]
    split
    · rename_i hx
      exact .float (h x rfl hx)
    · exact .null
  | text s => exact .text s

theorem CheckedEvent.toJson_held {c : CheckedEvent}
    (h : ∀ x, c.event.value = .float x → x.isFinite = true → Json.ReadBack x) (depth : Nat) :
    Json.Held Json.ReadBack (depth + 1) c.toJson := by
  have hlow := Int64.le_toInt c.event.timestamp
  have hhigh := Int64.toInt_lt c.event.timestamp
  have hkeys : ["id", "matched", "timestamp", "value"].Pairwise (· < ·) := by decide
  rw [CheckedEvent.toJson_eq]
  refine .object (List.pairwise_map.mp hkeys) ?_
  simp only [List.forall_mem_cons]
  exact ⟨.text _, .boolean _, .integer (by omega) (by omega), Value.toJson_held h depth, nofun⟩

/-- The report on events, read as events, gives these events. -/
theorem read_report {rows : List CheckedEvent} (hfinite : ∀ row ∈ rows, row.event.value.Finite)
    (hfloats : ∀ row ∈ rows, ∀ x, row.event.value = .float x → x.isFinite = true → Json.ReadBack x)
    (pretty : Bool) :
    Event.read (reportText pretty (.checked rows)) = .ok (rows.map CheckedEvent.event) := by
  have hrows : ∀ j ∈ rows.map CheckedEvent.toJson, Json.Held Json.ReadBack 126 j :=
    List.forall_mem_map.mpr fun row hrow => CheckedEvent.toJson_held (hfloats row hrow) 125
  have hheld : Json.Held Json.ReadBack Json.maxDepth (checkedJson rows) := .array hrows
  have hnewline : ∀ c ∈ ['\n'], Json.isBlank c = true := List.forall_mem_singleton.mpr rfl
  have hprinted := (hheld.printed pretty 0).append_blanks hnewline
  have hreport : reportText pretty (.checked rows) =
      String.ofList ((Json.renderAt pretty 0 (checkedJson rows)).toList ++ ['\n']) := by
    cases pretty <;> simp [reportText, Json.compact, Json.pretty]
  rw [hreport, read_padded_array hprinted, of_rows hfinite]

/-- Checking the report of a check gives the same report, so long as its floats are read back. -/
theorem checkReport_again {request : CheckRequest} {rows : List CheckedEvent}
    (h : check request = .ok (.checked rows))
    (hfloats : ∀ row ∈ rows, ∀ x, row.event.value = .float x → x.isFinite = true → Json.ReadBack x)
    (pretty : Bool) :
    check { request with events := some (reportText pretty (.checked rows)) } = .ok (.checked rows) := by
  obtain ⟨text, htext, hread⟩ := check_cases h
  have hfinite : ∀ row ∈ rows, row.event.value.Finite := by
    intro row hrow
    exact Event.finite_of_read hread _ (List.mem_map_of_mem hrow)
  have hsame : Event.read (reportText pretty (.checked rows)) = Event.read text := by
    rw [read_report hfinite hfloats pretty, hread]
  rw [check_congr request hsame, ← htext]
  exact h

/-- The report has rows, and their floats are read back. -/
def CheckReport.readable : CheckReport → Bool
  | .checked rows => rows.all fun row => match row.event.value with
    | .float x => decide (Json.ReadBack x)
    | .null | .boolean _ | .integer _ | .text _ => true
  | .parsed | .compiled .. => false

theorem CheckReport.of_readable {report : CheckReport} (h : report.readable = true) :
    ∃ rows, report = .checked rows ∧
      ∀ row ∈ rows, ∀ x, row.event.value = .float x → x.isFinite = true → Json.ReadBack x := by
  cases report with
  | checked rows =>
    refine ⟨rows, rfl, fun row hrow x hx _ => ?_⟩
    have hreadable := List.all_eq_true.mp h row hrow
    simpa [hx] using hreadable
  | parsed => cases h
  | compiled _ _ => cases h

theorem checkReport_again_of_each_kind : ∃ rows,
    check ⟨"> LIMIT", some "[5.5, \x7b\"id\": 7, \"value\": 18446744073709551615, \"timestamp\": 3\x7d, 0]",
      [("LIMIT", .integer 3)], false, false⟩ = .ok (.checked rows) ∧
    check ⟨"> LIMIT", some (reportText true (.checked rows)), [("LIMIT", .integer 3)], false, false⟩ =
      .ok (.checked rows) := by
  let request : CheckRequest :=
    ⟨"> LIMIT", some "[5.5, \x7b\"id\": 7, \"value\": 18446744073709551615, \"timestamp\": 3\x7d, 0]",
      [("LIMIT", .integer 3)], false, false⟩
  obtain ⟨report, hreport, hreadable⟩ := exists_of_any (p := CheckReport.readable) (r := check request)
    (by decide +kernel)
  obtain ⟨rows, rfl, hfloats⟩ := CheckReport.of_readable hreadable
  exact ⟨rows, hreport, checkReport_again hreport hfloats true⟩

end EventRules
