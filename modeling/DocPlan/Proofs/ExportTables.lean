import DocPlan.Exports.Table
import DocPlan.Proofs.Overlay

/-!
# Insertions into a table of exports

An insertion walks over the entries once. It replaces the file of the subpath where it finds it,
or else adds the subpath at the end, and it gives back the file that was there before
(`exchange_eq`). The entries of other subpaths stay where they are (`Keyed.getElem?_put_of_ne`).

So insertions one after the other lay their entries over each other, from the empty table on, and
the table they leave is the list of all of them, collapsed (`afterInserts_eq`). What the laws of
overlaying say of such a list is what the table holds: a subpath has its place by the first of its
insertions and its file by the last (`Holds`).

Main result: `first_place_last_file`.
-/

namespace DocPlan.ExportTable

/-! ## One insertion -/

/-- An insertion gives back what the table had for the subpath. -/
theorem exchange_eq (table : ExportTable) (key : String) (path : FilePath) :
    table.exchange key path = (table.get? key, table.insert key path) := by
  rw [exchange, Keyed.exchange_eq]
  rfl

/-- The file of another subpath stays, and so does its place. -/
theorem insert_of_ne {key other : String} (hne : other ≠ key) (table : ExportTable)
    (path : FilePath) :
    (table.insert key path).get? other = table.get? other ∧
      ∀ (index : Nat) file, (table.insert key path).entries[index]? = some (other, file) ↔
        table.entries[index]? = some (other, file) := by
  constructor
  · show Keyed.get? other (Keyed.put key path table.entries) = _
    rw [Keyed.get?_put, if_neg hne.symm]
    rfl
  · intro index file
    exact Keyed.getElem?_put_of_ne hne path file table.entries index

/-! ## One insertion after the other -/

/-- What insertions give back, in their order, and the table that they leave. -/
def exchangeAll (table : ExportTable) :
    List (String × FilePath) → List (Option FilePath) × ExportTable
  | [] => ([], table)
  | (key, path) :: rest =>
    let (old, next) := table.exchange key path
    let (later, last) := next.exchangeAll rest
    (old :: later, last)

/-- What insertions into an empty table give back. -/
def returned (calls : List (String × FilePath)) : List (Option FilePath) :=
  (empty.exchangeAll calls).1

/-- The table that insertions leave, from the empty table on. -/
def afterInserts (calls : List (String × FilePath)) : ExportTable :=
  (empty.exchangeAll calls).2

theorem exchangeAll_cons (table : ExportTable) (call : String × FilePath)
    (rest : List (String × FilePath)) :
    table.exchangeAll (call :: rest) =
      let (later, last) := (table.insert call.1 call.2).exchangeAll rest
      (table.get? call.1 :: later, last) := by
  rw [exchangeAll, exchange_eq]

theorem entries_exchangeAll (table : ExportTable) (calls : List (String × FilePath)) :
    (table.exchangeAll calls).2.entries = Keyed.overlay table.entries calls := by
  induction calls generalizing table with
  | nil => rfl
  | cons call rest ih =>
    rw [exchangeAll_cons]
    exact ih (table.insert call.1 call.2)

/-- Every insertion gives back what the insertions before it left for its subpath. -/
theorem getElem?_exchangeAll (table : ExportTable) (calls : List (String × FilePath))
    (index : Nat) :
    (table.exchangeAll calls).1[index]? =
      calls[index]?.map fun call => (table.exchangeAll (calls.take index)).2.get? call.1 := by
  induction calls generalizing table index with
  | nil => rfl
  | cons call rest ih =>
    rw [exchangeAll_cons]
    cases index with
    | zero => rfl
    | succ index =>
      rw [List.take_succ_cons, exchangeAll_cons]
      exact ih (table.insert call.1 call.2) index

/-- The table is the list of the insertions, collapsed. -/
theorem afterInserts_eq (calls : List (String × FilePath)) :
    afterInserts calls = ⟨Keyed.collapse calls⟩ :=
  congrArg mk (entries_exchangeAll empty calls)

theorem afterInserts_concat (calls : List (String × FilePath)) (key : String) (path : FilePath) :
    afterInserts (calls ++ [(key, path)]) = (afterInserts calls).insert key path := by
  rw [afterInserts_eq, afterInserts_eq, Keyed.collapse, Keyed.overlay_append]
  rfl

/-! ## What a table holds -/

/-- A table holds insertions: each subpath once, at the place of its first insertion and with the
file of its last, and nothing else. -/
structure Holds (calls : List (String × FilePath)) (table : ExportTable) : Prop where
  distinct : table.keys.Nodup
  inserted (key : String) : key ∈ table.keys ↔ key ∈ Keyed.keys calls
  firstPlace : table.keys.Pairwise fun key later =>
    (Keyed.keys calls).idxOf key < (Keyed.keys calls).idxOf later
  lastFile (key : String) (path : FilePath) : table.get? key = some path ↔
    ∃ before after, calls = before ++ (key, path) :: after ∧ key ∉ Keyed.keys after
  missing (key : String) : table.get? key = none ↔ key ∉ Keyed.keys calls
  listed : table.entries =
    table.keys.filterMap fun key => (table.get? key).map fun path => (key, path)
  counted : table.size = table.keys.length
  nothing : table.isEmpty = true ↔ calls = []

theorem holds_afterInserts (calls : List (String × FilePath)) :
    Holds calls (afterInserts calls) := by
  have hkeys : (afterInserts calls).keys = (Keyed.keys calls).eraseDups := by
    rw [afterInserts_eq]
    exact Keyed.keys_collapse calls
  have hdistinct : (afterInserts calls).keys.Nodup := by
    rw [afterInserts_eq]
    exact Keyed.nodup_keys_collapse calls
  have hget : ∀ key, (afterInserts calls).get? key = Keyed.last? key calls := by
    intro key
    rw [afterInserts_eq, ← Keyed.last?_collapse]
    exact (Keyed.last?_eq_get? (Keyed.nodup_keys_collapse calls)).symm
  have hinserted : ∀ key, key ∈ (afterInserts calls).keys ↔ key ∈ Keyed.keys calls := by
    intro key
    rw [hkeys, List.mem_eraseDups]
  refine ⟨hdistinct, hinserted, ?_, ?_, ?_, Keyed.eq_filterMap_keys hdistinct, ?_, ?_⟩
  · rw [hkeys]
    exact pairwise_idxOf_eraseDups (Keyed.keys calls)
  · intro key path
    rw [hget, Keyed.last?_eq_some_iff]
  · intro key
    rw [hget, Keyed.last?_eq_none_iff]
  · exact (List.length_map _).symm
  · have hnone : (afterInserts calls).keys = [] ↔ Keyed.keys calls = [] := by
      simp only [List.eq_nil_iff_forall_not_mem, hinserted]
    calc (afterInserts calls).isEmpty = true
        ↔ (afterInserts calls).entries = [] := List.isEmpty_iff
      _ ↔ (afterInserts calls).keys = [] := List.map_eq_nil_iff.symm
      _ ↔ Keyed.keys calls = [] := hnone
      _ ↔ calls = [] := List.map_eq_nil_iff

/-- Whatever is inserted into an empty table, the table holds it: each subpath once, where it was
first inserted and with the file that was inserted last. Each insertion gives back the file that
the table had for its subpath just before. One more insertion leaves the table that holds it as
well, and changes neither the file nor the place of any other subpath. -/
theorem first_place_last_file (calls : List (String × FilePath)) :
    Holds calls (afterInserts calls) ∧
    (∀ index : Nat, (returned calls)[index]? =
      calls[index]?.map fun call => (afterInserts (calls.take index)).get? call.1) ∧
    ∀ key path,
      let table := afterInserts calls
      let next := afterInserts (calls ++ [(key, path)])
      table.exchange key path = (table.get? key, next) ∧
      ∀ other, other ≠ key → next.get? other = table.get? other ∧
        ∀ (index : Nat) file, next.entries[index]? = some (other, file) ↔
          table.entries[index]? = some (other, file) := by
  refine ⟨holds_afterInserts calls, getElem?_exchangeAll empty calls, ?_⟩
  intro key path
  rw [afterInserts_concat]
  exact ⟨exchange_eq _ key path, fun other hne => insert_of_ne hne _ path⟩

/-- Insertions of which the last replaces the first. -/
def exampleCalls : List (String × FilePath) :=
  [(".", .ofString "/a"), ("./b", .ofString "/b"), (".", .ofString "/c")]

theorem first_place_last_file_of_replaced :
    (returned exampleCalls)[2]? = some (some (.ofString "/a")) ∧
    (afterInserts exampleCalls).get? "." = some (.ofString "/c") ∧
    "./b" ≠ "." ∧
    (afterInserts (exampleCalls ++ [(".", .ofString "/d")])).entries[1]? =
      some ("./b", .ofString "/b") := by
  obtain ⟨hholds, hreturned, hnext⟩ := first_place_last_file exampleCalls
  have hlast : (afterInserts exampleCalls).get? "." = some (.ofString "/c") :=
    (hholds.lastFile "." (.ofString "/c")).mpr
      ⟨[(".", .ofString "/a"), ("./b", .ofString "/b")], [], rfl, List.not_mem_nil⟩
  obtain ⟨-, hstays⟩ := (hnext "." (.ofString "/d")).2 "./b" (by decide)
  exact ⟨(hreturned 2).trans (by decide), hlast, by decide, (hstays 1 _).mpr (by decide)⟩

end DocPlan.ExportTable
