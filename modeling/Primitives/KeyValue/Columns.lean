import Primitives.KeyValue.Model

/-!
# Key/value store — what the columns hold

What the service table holds is a text for some columns (`Holds`). To read a column that is not there
adds it with the empty text (`getValueByKey_holds`), and every value but a `double` is read back from the
text that is stored for it (`readAs_text`).
-/

set_option autoImplicit false

namespace Primitives.KeyValue

open Lib Lib.Exec

/-! ## Values and their texts -/

theorem stoi_intStr (i : Int32) : stoi (intStr i.toInt) = .ok i := by
  unfold stoi
  rw [parseInt_intStr]
  dsimp only
  rw [if_pos ⟨i.le_toInt, Int.le_of_lt_add_one i.toInt_lt⟩, Int32.ofInt_toInt]

theorem stoll_intStr (i : Int64) : stoll (intStr i.toInt) = .ok i := by
  unfold stoll
  rw [parseInt_intStr]
  dsimp only
  rw [if_pos ⟨i.le_toInt, Int.le_of_lt_add_one i.toInt_lt⟩, Int64.ofInt_toInt]

variable {D : Type} {doubles : Doubles D}

/-- A `double` that its text does not lose. -/
def Survives (doubles : Doubles D) : Value D → Prop
  | .double d => doubles.stod (doubles.toString d) = .ok d
  | _ => True

/-- **A value is read back from its text.** -/
theorem readAs_text {v : Value D} (h : Survives doubles v) :
    readAs doubles v.type (text doubles v) = .ok v := by
  cases v with
  | string s => rfl
  | int i =>
    show (stoi (intStr i.toInt) >>= fun i => .ok (Value.int i)) = .ok (Value.int i)
    rw [stoi_intStr]
    rfl
  | longLong i =>
    show (stoll (intStr i.toInt) >>= fun i => .ok (Value.longLong i)) = .ok (Value.longLong i)
    rw [stoll_intStr]
    rfl
  | double d =>
    show (doubles.stod (doubles.toString d) >>= fun d => .ok (Value.double d)) = .ok (Value.double d)
    rw [h]
    rfl

/-! ## What the service table holds -/

/-- The table has these texts in these columns. -/
def Table.Holds (t : Table) (cells : Str → Option Str) : Prop :=
  ∃ row, t.rows = [row] ∧
    ∀ c, (c ∈ t.columns → cells c = some (row c)) ∧ (c ∉ t.columns → cells c = none)

/-- The service table, or the one that the next call creates, has these texts in these columns. -/
def Holds (db : Database) (cells : Str → Option Str) : Prop :=
  ∃ t, createServiceTable db = (.ok t, some t) ∧ t.Holds cells

/-- A table that has not been created. -/
def newCells : Str → Option Str := Function.update (fun _ => none) versionColumn (some ['-', '1'])

theorem Holds.none : Holds none newCells := by
  refine ⟨⟨[versionColumn], [mainRow]⟩, rfl, mainRow, rfl, fun c => ⟨fun hc => ?_, fun hc => ?_⟩⟩
  · rw [List.mem_singleton.mp hc]
    rfl
  · exact Function.update_of_ne (fun h => hc (List.mem_singleton.mpr h)) _ _

variable {db : Database} {t : Table} {cells : Str → Option Str}

theorem Table.Holds.holds (h : t.Holds cells) : KeyValue.Holds (some t) cells := by
  obtain ⟨row, hrows, hcells⟩ := h
  refine ⟨t, ?_, row, hrows, hcells⟩
  unfold createServiceTable
  rw [bind_of_ok (x := gets id) rfl]
  show (if t.rows.length = 0 then _ else if t.rows.length > 1 then _ else _ : Session Table) _ = _
  rw [hrows]
  rfl

/-- The cells with a column that reads as empty if it was not there. -/
def touch (cells : Str → Option Str) (c : Str) : Str → Option Str :=
  Function.update cells c (some ((cells c).getD []))

theorem createServiceTableColumn_holds (h : t.Holds cells) (key : Str) :
    ∃ t', createServiceTableColumn t key (some t) = (.ok ((cells (column key)).isNone, t'), some t') ∧
      t'.Holds (touch cells (column key)) := by
  obtain ⟨row, hrows, hcells⟩ := h
  unfold createServiceTableColumn touch
  by_cases hmem : column key ∈ t.columns
  · have hcell := (hcells (column key)).1 hmem
    rw [if_pos hmem, hcell]
    refine ⟨t, rfl, row, hrows, fun c => ?_⟩
    by_cases hc : c = column key
    · subst hc
      rw [Function.update_self]
      exact ⟨fun _ => rfl, fun hno => absurd hmem hno⟩
    · rw [Function.update_of_ne hc]
      exact hcells c
  · have hcell := (hcells (column key)).2 hmem
    rw [if_neg hmem, hcell]
    refine ⟨_, rfl, Function.update row (column key) [], ?_, fun c => ?_⟩
    · rw [hrows]
      rfl
    · by_cases hc : c = column key
      · subst hc
        rw [Function.update_self, Function.update_self]
        exact ⟨fun _ => rfl, fun hno => absurd (List.mem_append_right _ List.mem_cons_self) hno⟩
      · have hiff : c ∈ t.columns ++ [column key] ↔ c ∈ t.columns := by
          rw [List.mem_append, List.mem_singleton, or_iff_left hc]
        rw [Function.update_of_ne hc, Function.update_of_ne hc, hiff]
        exact hcells c

/-- **Reading a column**: none where it was not there, and it is there afterwards. -/
theorem getValueByKey_holds (h : Holds db cells) (key : Str) :
    ∃ db', getValueByKey key db = (.ok (cells (column key)), db') ∧
      Holds db' (touch cells (column key)) := by
  obtain ⟨t, ht, hholds⟩ := h
  obtain ⟨t', ht', row, hrows, hcells⟩ := createServiceTableColumn_holds hholds key
  refine ⟨some t', ?_, Table.Holds.holds ⟨row, hrows, hcells⟩⟩
  unfold getValueByKey
  rw [bind_of_ok ht, bind_of_ok ht']
  cases hc : cells (column key) with
  | none => rfl
  | some x =>
    have hrow : row (column key) = x := by
      have hcell := hcells (column key)
      rw [touch, Function.update_self, hc] at hcell
      by_cases hmem : column key ∈ t'.columns
      · exact (Option.some.inj (hcell.1 hmem)).symm
      · cases hcell.2 hmem
    cases t' with
    | mk columns rows =>
      subst hrows
      subst hrow
      rfl

/-- **Setting a column.** -/
theorem setValueByKey_holds (h : Holds db cells) (key value : Str) :
    ∃ db', setValueByKey key value db = (.ok (), db') ∧
      Holds db' (Function.update cells (column key) (some (value.takeWhile (· ≠ '\x00')))) := by
  obtain ⟨t, ht, hholds⟩ := h
  obtain ⟨t', ht', row, hrows, hcells⟩ := createServiceTableColumn_holds hholds key
  have hmem : column key ∈ t'.columns := by
    by_contra hno
    have hcell := (hcells (column key)).2 hno
    rw [touch, Function.update_self] at hcell
    cases hcell
  unfold setValueByKey
  rw [bind_of_ok ht, bind_of_ok ht', hrows]
  let row' := Function.update row (column key) (value.takeWhile (· ≠ '\x00'))
  refine ⟨some ⟨t'.columns, [row']⟩, rfl, Table.Holds.holds ⟨row', rfl, fun c => ?_⟩⟩
  by_cases hc : c = column key
  · subst hc
    rw [Function.update_self]
    exact ⟨fun _ => congrArg some (Function.update_self _ _ row).symm, fun hno => absurd hmem hno⟩
  · have hrow' : row' c = row c := Function.update_of_ne hc _ row
    have hcell := hcells c
    rw [touch, Function.update_of_ne hc] at hcell
    rw [Function.update_of_ne hc, hrow']
    exact hcell

/-! ## The calls on the columns -/

theorem checkKey_of_isKey {key : Str} (h : IsKey key) (db : Database) :
    checkKey key db = (.ok (), db) := by
  rw [checkKey, if_pos h]
  rfl

theorem ofExcept_eq {α : Type} (e : Except Failure α) (db : Database) :
    (ofExcept e : Session α) db = (e, db) := by
  cases e <;> rfl

theorem takeWhile_of_notMem {s : Str} (h : '\x00' ∉ s) : s.takeWhile (· ≠ '\x00') = s := by
  rw [List.takeWhile_eq_self_iff]
  intro c hc
  refine decide_eq_true fun heq => h ?_
  rwa [← heq]

theorem setValue_holds {key : Str} {v : Value D} (h : Holds db cells) (hkey : IsKey key)
    (hnul : '\x00' ∉ text doubles v) :
    ∃ db', KeyValue.setValue doubles key v db = (.ok (), db') ∧
      Holds db' (Function.update cells (column key) (some (text doubles v))) := by
  obtain ⟨db', hset, hholds⟩ := setValueByKey_holds h key (text doubles v)
  rw [takeWhile_of_notMem hnul] at hholds
  refine ⟨db', ?_, hholds⟩
  unfold KeyValue.setValue
  rw [bind_of_ok (checkKey_of_isKey hkey db), hset]

/-- **Reading**: the text of the column as a value of the type, and none where there is no column. -/
theorem getValue_holds (doubles : Doubles D) {key : Str} (h : Holds db cells) (hkey : IsKey key) (type : ValueType) :
    ∃ db', Holds db' (touch cells (column key)) ∧
      (cells (column key) = none → KeyValue.getValue doubles type key db = (.ok none, db')) ∧
      ∀ x, cells (column key) = some x →
        KeyValue.getValue doubles type key db = ((readAs doubles type x).map some, db') := by
  obtain ⟨db', hget, hholds⟩ := getValueByKey_holds h key
  refine ⟨db', hholds, fun hnone => ?_, fun x hx => ?_⟩
  · rw [hnone] at hget
    unfold KeyValue.getValue
    rw [bind_of_ok (checkKey_of_isKey hkey db), bind_of_ok hget]
    rfl
  · rw [hx] at hget
    unfold KeyValue.getValue
    rw [bind_of_ok (checkKey_of_isKey hkey db), bind_of_ok hget]
    have hread := ofExcept_eq (readAs doubles type x) db'
    cases hv : readAs doubles type x with
    | ok v => exact bind_of_ok (hread.trans (congrArg (·, db') hv))
    | error e => exact bind_of_error (hread.trans (congrArg (·, db') hv))

theorem touch_of_some {c x : Str} (h : cells c = some x) : touch cells c = cells := by
  rw [touch, h, Option.getD_some, ← h, Function.update_eq_self]

theorem getValueOr_of_none {key : Str} {default : Value D} (h : Holds db cells) (hkey : IsKey key)
    (hnul : '\x00' ∉ text doubles default) (hnone : cells (column key) = none) :
    ∃ db', KeyValue.getValueOr doubles key default db = (.ok default, db') ∧
      Holds db' (Function.update cells (column key) (some (text doubles default))) := by
  obtain ⟨db₁, hget, hholds₁⟩ := getValueByKey_holds h key
  obtain ⟨db', hset, hholds⟩ := setValue_holds hholds₁ hkey hnul
  rw [hnone] at hget
  rw [touch, Function.update_idem] at hholds
  refine ⟨db', ?_, hholds⟩
  unfold KeyValue.getValueOr
  rw [bind_of_ok (checkKey_of_isKey hkey db), bind_of_ok hget]
  exact bind_of_ok hset

theorem getValueOr_of_some (doubles : Doubles D) {key x : Str} (default : Value D) (h : Holds db cells) (hkey : IsKey key)
    (hx : cells (column key) = some x) :
    ∃ db', KeyValue.getValueOr doubles key default db = (readAs doubles default.type x, db') ∧
      Holds db' cells := by
  obtain ⟨db', hget, hholds⟩ := getValueByKey_holds h key
  rw [hx] at hget
  rw [touch_of_some hx] at hholds
  refine ⟨db', ?_, hholds⟩
  unfold KeyValue.getValueOr
  rw [bind_of_ok (checkKey_of_isKey hkey db), bind_of_ok hget]
  exact ofExcept_eq _ db'

end Primitives.KeyValue
