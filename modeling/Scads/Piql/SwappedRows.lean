import Scads.Piql.OrderedPlans
import Scads.Piql.ValueOrder

namespace Scads.Piql

open Scads.Client Scads.Data

/-! # Rows that change places

Where the fields of a sort are not the next ones of the key, two rows stand one way by
the key and the other way by the sort.
-/

/-- The lesser of two values that a field can have. -/
def lowOf (field : Field) : Datum :=
  if field.schema = "\"string\"" then .utf8 "a"
  else if field.schema = "\"boolean\"" then .boolean false
  else .int 0

def highOf (field : Field) : Datum :=
  if field.schema = "\"string\"" then .utf8 "b"
  else if field.schema = "\"boolean\"" then .boolean true
  else .int 1

theorem lowOf_below (field : Field) : (lowOf field).Below (highOf field) := by
  rw [lowOf, highOf]
  split
  · exact (by decide : units "a" < units "b")
  · split
    · exact ⟨rfl, rfl⟩
    · exact (by decide : (0 : Int32).toInt < (1 : Int32).toInt)

theorem lowOf_conforms (field : Field) : Conforms field (lowOf field) := by
  constructor
  · intro isInt
    exact ⟨0, by rw [lowOf, isInt]; rfl⟩
  · intro isString
    exact ⟨"a", by rw [lowOf, isString]; rfl⟩
  · intro isBoolean
    exact ⟨false, by rw [lowOf, isBoolean]; rfl⟩

theorem highOf_conforms (field : Field) : Conforms field (highOf field) := by
  constructor
  · intro isInt
    exact ⟨1, by rw [highOf, isInt]; rfl⟩
  · intro isString
    exact ⟨"b", by rw [highOf, isString]; rfl⟩
  · intro isBoolean
    exact ⟨true, by rw [highOf, isBoolean]; rfl⟩

section

variable (ns : TupleProvider) (values : List Datum)

/-- A row with these first values of its key, and the values of a function in the others. -/
def rowOf (fill : Field → Datum) : Record :=
  values.map Datum.stored ++ (ns.keySchema.drop values.length ++ ns.schema.valueFields).map fill

/-- The row that is high in one field. -/
def raised (high : Field) (field : Field) : Datum := if field = high then highOf field else lowOf field

theorem rowOf_starts (fill : Field → Datum) : values.map Datum.stored <+: rowOf ns values fill :=
  List.prefix_append ..

variable {ns values}

theorem read_rowOf (fill : Field → Datum) {field : Field} (member : field ∈ ns.keySchema.drop values.length) :
    ns.read (rowOf ns values fill) field = fill field := by
  obtain ⟨index, inside, rfl⟩ := List.mem_iff_getElem.mp member
  have inKey : values.length + index < ns.keySchema.length := by
    rw [List.length_drop] at inside
    omega
  rw [List.getElem_drop, TupleProvider.read, pos_keySchema inKey, rowOf, List.getD_eq_getElem?_getD,
    List.getElem?_append_right (by rw [List.length_map]; omega), List.length_map, Nat.add_sub_cancel_left,
    List.getElem?_map, List.getElem?_append_left inside, List.getElem?_eq_getElem inside, List.getElem_drop]
  rfl

theorem raised_conforms (high field : Field) : Conforms field (raised high field) := by
  rw [raised]
  split
  · exact highOf_conforms field
  · exact lowOf_conforms field

theorem rowOf_conforms
    (conform : List.Forall₂ Conforms (ns.keySchema.take values.length) (values.map Datum.stored)) (high : Field) :
    List.Forall₂ Conforms ns.fields (rowOf ns values (raised high)) := by
  have fields : ns.fields =
      ns.keySchema.take values.length ++ (ns.keySchema.drop values.length ++ ns.schema.valueFields) := by
    rw [← List.append_assoc, List.take_append_drop]
    rfl
  rw [fields]
  refine List.rel_append conform (List.forall₂_map_right_iff.mpr (List.forall₂_same.mpr fun field _ => ?_))
  exact raised_conforms high field

/-- Two rows with the same first values that the key puts in one order and the fields do not. -/
theorem exists_swapped {fields : List Field} (within : fields ⊆ ns.keySchema)
    (unlike : ¬ Follow ns values.length fields) :
    ∃ first second, LexLe Datum.Below (ns.read (rowOf ns values (raised first)))
        (ns.read (rowOf ns values (raised second))) ns.keySchema ∧
      ¬ LexLe Datum.Below (ns.read (rowOf ns values (raised first)))
        (ns.read (rowOf ns values (raised second))) fields := by
  have inside : deciding (ns.keySchema.take values.length) fields ⊆ ns.keySchema.drop values.length := by
    intro field member
    obtain ⟨there, new⟩ := mem_deciding member
    have inKey := within there
    rw [← List.take_append_drop values.length ns.keySchema] at inKey
    exact (List.mem_append.mp inKey).resolve_left new
  obtain ⟨shared, field, rest, other, behind, decides, key, differ, found⟩ :=
    exists_parting (nodup_deciding _ fields) inside unlike
  have distinct : (ns.keySchema.drop values.length).Nodup := by
    have all : (ns.fields.map Field.name).Nodup := ns.schema.distinct
    exact (List.nodup_append.mp all.of_map).1.sublist (List.drop_sublist ..)
  have unshared : ∀ early ∈ shared, early ≠ field ∧ early ≠ other := by
    rw [key] at distinct
    have apart := (List.nodup_append.mp distinct).2.2
    exact fun early member => ⟨apart early member field (List.mem_cons_of_mem _ found),
      apart early member other List.mem_cons_self⟩
  have reads (high : Field) {read : Field} (member : read ∈ shared ++ other :: behind) :
      ns.read (rowOf ns values (raised high)) read = raised high read := read_rowOf _ (key ▸ member)
  have sameShared : ∀ early ∈ shared, ns.read (rowOf ns values (raised field)) early =
      ns.read (rowOf ns values (raised other)) early := by
    intro early member
    obtain ⟨notField, notOther⟩ := unshared early member
    rw [reads _ (List.mem_append_left _ member), reads _ (List.mem_append_left _ member), raised, raised,
      if_neg notField, if_neg notOther]
  have sameGiven : ∀ given ∈ ns.keySchema.take values.length, ns.read (rowOf ns values (raised field)) given =
      ns.read (rowOf ns values (raised other)) given := by
    have agreed :=
      @agree_of_starts ns _ _ _ (rowOf_starts ns values (raised field)) (rowOf_starts ns values (raised other))
    rwa [List.length_map] at agreed
  refine ⟨field, other, ?_, fun ordered => ?_⟩
  · rw [← List.take_append_drop values.length ns.keySchema]
    refine lexLe_append sameGiven ?_
    rw [key]
    refine lexLe_append sameShared (.inl ?_)
    have here : other ∈ shared ++ other :: behind := by simp
    rw [reads _ here, reads _ here, raised, raised, if_neg differ.symm, if_pos rfl]
    exact lowOf_below other
  · have decided := ordered.deciding Datum.below_irrefl sameGiven
    rw [decides] at decided
    have parted := decided.drop_agreed Datum.below_irrefl sameShared
    have here : field ∈ shared ++ other :: behind := by simp [found]
    have swapped : (ns.read (rowOf ns values (raised other)) field).Below
        (ns.read (rowOf ns values (raised field)) field) := by
      rw [reads _ here, reads _ here, raised, raised, if_neg differ, if_pos rfl]
      exact lowOf_below field
    obtain below | ⟨same, -⟩ := parted
    · exact Datum.below_irrefl _ (Datum.below_trans _ _ _ swapped below)
    · rw [same] at swapped
      exact Datum.below_irrefl _ swapped

end

section

variable {records : TupleProvider → List Record} {counted : ∀ ns, (records ns).length < 2 ^ 31}

/-- A store of ranges only: a namespace has these records, in their order. -/
def Store.holding (records : TupleProvider → List Record) (counted : ∀ ns, (records ns).length < 2 ^ 31) : Store where
  getRecord _ _ := none
  matching ns key := (records ns).filter fun record => ((givenPart key).map Datum.stored).isPrefixOf record
  counted ns _ := Nat.lt_of_le_of_lt (List.length_filter_le ..) (counted ns)

theorem holding_inKeyOrder (sorted : ∀ ns, (records ns).Pairwise fun left right =>
    LexLe Datum.Below (ns.read left) (ns.read right) ns.keySchema) :
    (Store.holding records counted).InKeyOrder Datum.Below where
  irreflexive := Datum.below_irrefl
  transitive := Datum.below_trans
  sorted ns _ := (sorted ns).filter _
  starts _ _ _ member := List.isPrefixOf_iff_prefix.mp (List.mem_filter.mp member).2

theorem holding_typed (conform : ∀ ns, ∀ record ∈ records ns, List.Forall₂ Conforms ns.fields record) :
    (Store.holding records counted).Typed := by
  intro ns record given
  obtain ⟨key, found⟩ | ⟨keyPrefix, member⟩ := given
  · cases found
  · exact conform ns record (List.mem_filter.mp member).1

theorem holding_exact : (Store.holding records counted).IndexesExact := by
  intro r names idx _ entry record _ found
  cases found

/-- The records of one relation, where there are no others. -/
def only (ns : TupleProvider) (records : List Record) (other : TupleProvider) : List Record :=
  if other = ns then records else []

theorem only_self (ns : TupleProvider) (records : List Record) : only ns records ns = records := if_pos rfl

theorem only_cases {ns : TupleProvider} {records : List Record} {holds : TupleProvider → List Record → Prop}
    (here : holds ns records) (elsewhere : ∀ other, holds other []) (other : TupleProvider) :
    holds other (only ns records other) := by
  rw [only]
  split
  · rename_i same
    rw [same]
    exact here
  · exact elsewhere other

end

section

variable {ns : TupleProvider} {records : List Record}

theorem only_counted (counted : records.length < 2 ^ 31) (other : TupleProvider) :
    (only ns records other).length < 2 ^ 31 :=
  @only_cases ns records (fun _ held => held.length < 2 ^ 31) counted (fun _ => by decide) other

/-- A store with one relation. -/
def Store.listing (ns : TupleProvider) (records : List Record) (counted : records.length < 2 ^ 31) : Store :=
  .holding (only ns records) (only_counted counted)

theorem listing_inOrder {counted : records.length < 2 ^ 31} {values : List Datum} (present : .null ∉ values)
    (count : Nat) (ascending : Bool)
    (start : ∀ record ∈ records, values.map Datum.stored <+: record) :
    (Store.listing ns records counted).inOrder ns (values ++ List.replicate count .null) ascending =
      if ascending then records else records.reverse := by
  have all : (Store.listing ns records counted).matching ns (values ++ List.replicate count .null) = records := by
    dsimp only [Store.listing, Store.holding]
    rw [only_self, givenPart_padded present]
    exact List.filter_eq_self.mpr fun record member => List.isPrefixOf_iff_prefix.mpr (start record member)
  rw [Store.inOrder, all]

/-- A scan of the key, with or without a stop, can come out of the order of fields that are not the next ones. -/
theorem exists_disorder {ctx : Context} {key : KeyGenerator} {values : List Datum} {fields : List Field}
    {limit : Limit} {count : Int} (evaluated : key.mapM (fun value => bindValue ctx value none) = .ok values)
    (short : values.length ≤ ns.keySchema.length) (present : .null ∉ values)
    (conform : List.Forall₂ Conforms (ns.keySchema.take values.length) (values.map Datum.stored))
    (within : fields ⊆ ns.keySchema) (unlike : ¬ Follow ns values.length fields)
    (isLimit : bindLimit ctx limit = .ok count) (positive : 1 ≤ count) (ascending : Bool) :
    ∃ store tuples, store.InKeyOrder Datum.Below ∧ store.Typed ∧ store.IndexesExact ∧
      Settles (execute (SimpleExecutor.apply ctx store (.indexScan ns key limit ascending))) (.ok tuples) ∧
      (2 ≤ count → Settles (execute (SimpleExecutor.apply ctx store
        (.localStopAfter limit (.indexScan ns key limit ascending)))) (.ok tuples)) ∧
      ¬ tuples.Pairwise (InSortOrder Datum.Below ascending [ns] (fields.map (.qualifiedAttribute ns))) := by
  obtain ⟨first, second, byKey, notByFields⟩ := exists_swapped within unlike
  let rows := [rowOf ns values (raised first), rowOf ns values (raised second)]
  have starts : ∀ record ∈ rows, values.map Datum.stored <+: record :=
    List.forall_mem_cons.mpr ⟨rowOf_starts .., List.forall_mem_singleton.mpr (rowOf_starts ..)⟩
  have conforms : ∀ record ∈ rows, List.Forall₂ Conforms ns.fields record :=
    List.forall_mem_cons.mpr ⟨rowOf_conforms conform _, List.forall_mem_singleton.mpr (rowOf_conforms conform _)⟩
  let store := Store.listing ns rows (show 2 < 2 ^ 31 by decide)
  have bound : bindKey ctx ns key none =
      .ok (values ++ List.replicate (ns.keySchema.length - values.length) .null) := by
    rw [bindKey, evaluated]
    exact if_pos short
  have scanned : course ctx store (.indexScan ns key limit ascending) =
      .ok (.ofList ((if ascending then rows else rows.reverse).map fun r => [r])) := by
    rw [course, bound]
    change Except.ok (Course.ofList ((store.inOrder _ _ _).map _)) = _
    rw [listing_inOrder present _ ascending starts]
  have length : ((if ascending then rows else rows.reverse).map fun r => [r]).length = 2 := by
    cases ascending <;> rfl
  have sorted : rows.Pairwise fun left right => LexLe Datum.Below (ns.read left) (ns.read right) ns.keySchema :=
    .cons (List.forall_mem_singleton.mpr byKey) (List.pairwise_singleton _ _)
  have typed : store.Typed := holding_typed (@only_cases ns rows
    (fun other held => ∀ record ∈ held, List.Forall₂ Conforms other.fields record) conforms fun _ => List.forall_mem_nil _)
  refine ⟨store, (if ascending then rows else rows.reverse).map fun r => [r],
    holding_inKeyOrder (only_cases sorted fun _ => .nil), typed, holding_exact, ?_, fun several => ?_,
    fun ordered => notByFields ?_⟩
  · have limits : LimitsWithin ctx count (.indexScan ns key limit ascending) :=
      List.forall_mem_singleton.mpr ⟨count, isLimit, by omega, Int.le_refl count⟩
    refine (SimpleExecutor.execute_settles limits.advance).congr_outcome ?_
    rw [SimpleExecutor.apply, bound, isLimit, scanned]
    exact Course.outcome_ofList _
  · have limits : LimitsWithin ctx count (.localStopAfter limit (.indexScan ns key limit ascending)) :=
      List.forall_mem_cons.mpr ⟨⟨count, isLimit, by omega, Int.le_refl count⟩,
        List.forall_mem_singleton.mpr ⟨count, isLimit, by omega, Int.le_refl count⟩⟩
    refine (SimpleExecutor.execute_settles limits.advance).congr_outcome ?_
    rw [SimpleExecutor.apply, SimpleExecutor.apply, bound, course, scanned, isLimit]
    change Course.outcome (Course.stop count.toNat (.ofList _)) = _
    rw [Course.stop_ofList, List.take_of_length_le (by omega)]
    exact Course.outcome_ofList _
  · cases ascending with
    | true => exact inSortOrder_single.mp ((List.pairwise_cons.mp ordered).1 _ (List.mem_singleton.mpr rfl))
    | false =>
        have swapped := inSortOrder_single.mp ((List.pairwise_cons.mp ordered).1 _ (List.mem_singleton.mpr rfl))
        exact lexLe_flip.mp swapped

end

end Scads.Piql
