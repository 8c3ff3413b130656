import Kiya.Db.Audit

/-!
# Appending to a history

`appendHistoryJSON` decodes the entries that are there into untyped values and encodes them again,
with every append. An entry keeps its text if and only if its integers come back from a float as
they were; a changed number is not changed again by later appends (`recodeEntry_recodeEntry`). So
the array holds the entries as they were appended, in this order, if and only if all integers in the
earlier ones come back.
-/

namespace Kiya

open HistoryEntry

/-- A text that was decoded and encoded again; something else is left empty. -/
def textOf : Option Json → Json
  | some (.str s) => .str s
  | some (.quoted j spelling) => .quoted j spelling
  | _ => .str ""

/-- The fields of an object. -/
def fieldsOf : Option Json → List (String × Json)
  | some (.obj fields) => fields
  | _ => []

/-- The actor of an entry that was decoded and encoded again; `null` is left out. -/
def recodedActor : Option Json → Option Json
  | some .null => none
  | some j => some j.recoded
  | none => none

/-- A time that was decoded and encoded again. -/
def timeOf : Option Json → Json
  | some (.time instant offset) => .time instant offset
  | _ => .time zeroInstant 0

/-! ### Fields -/

section Fields

variable (fields : List (String × Json))

theorem recodedFields_eq_map : recodedFields fields = fields.map fun p => (p.1, p.2.recoded) := by
  induction fields with
  | nil => rfl
  | cons p fields ih => rw [recodedFields, ih, List.map_cons]

theorem sortFields_recodedFields :
    sortFields (recodedFields fields) = recodedFields (sortFields fields) := by
  rw [recodedFields_eq_map, recodedFields_eq_map]
  exact (List.map_insertionSort (fun f g : String × Json => f.1.toList ≤ g.1.toList)
    (fun f g : String × Json => f.1.toList ≤ g.1.toList) (fun p => (p.1, p.2.recoded)) fields
    fun _ _ _ _ => Iff.rfl).symm

theorem sortFields_sortFields : sortFields (sortFields fields) = sortFields fields := by
  have : Std.Total fun f g : String × Json => f.1.toList ≤ g.1.toList := ⟨fun _ _ => le_total _ _⟩
  have : IsTrans (String × Json) fun f g => f.1.toList ≤ g.1.toList := ⟨fun _ _ _ => le_trans⟩
  exact (List.pairwise_insertionSort _ fields).insertionSort_eq

end Fields

/-! ### Entries -/

/-- The parts of an entry that is decoded and encoded again. -/
theorem recodeEntry_obj (fields : List (String × Json)) : recodeEntry (.obj fields) =
    entryJson (textOf (lookupField "action" fields))
      (sortFields (recodedFields (fieldsOf (lookupField "changes" fields))))
      (recodedActor (lookupField "actor_id" fields)) (textOf (lookupField "actor_name" fields))
      (timeOf (lookupField "at" fields)) := by
  have hchanges (o : Option Json) : (match o with
      | some (.obj changes) => sortFields (recodedFields changes)
      | _ => []) = sortFields (recodedFields (fieldsOf o)) := by
    rcases o with _ | j
    · rfl
    · cases j <;> rfl
  rw [← hchanges]
  rfl

section Entries

variable (action : Json) (changes : List (String × Json)) (actorID : Option Json) (name at_ : Json)

/-- The fields of an entry are found under their names. -/
theorem lookup_entryJson : ∃ fields, entryJson action changes actorID name at_ = .obj fields ∧
    lookupField "action" fields = some action ∧ fieldsOf (lookupField "changes" fields) = changes ∧
    lookupField "actor_id" fields = actorID ∧
    (lookupField "actor_name" fields = some name ∨
      lookupField "actor_name" fields = none ∧ name = .str "") ∧
    lookupField "at" fields = some at_ := by
  refine ⟨_, rfl, ?_⟩
  have hfold : ∀ name ∈ ["action", "changes", "actor_id", "actor_name", "at"],
      foldName name = name := by decide +kernel
  simp only [List.forall_mem_cons] at hfold
  obtain ⟨h₁, h₂, h₃, h₄, h₅, -⟩ := hfold
  by_cases hname : name = .str "" <;> rcases changes with _ | ⟨c, cs⟩ <;>
    rcases actorID with _ | a <;> simp [hname, lookupField, h₁, h₂, h₃, h₄, h₅, fieldsOf]

theorem recodeEntry_entryJson (haction : textOf (some action) = action)
    (hname : textOf (some name) = name) (hat : timeOf (some at_) = at_) :
    recodeEntry (entryJson action changes actorID name at_) =
      entryJson action (sortFields (recodedFields changes)) (recodedActor actorID) name at_ := by
  obtain ⟨fields, hfields, hlaction, hlchanges, hlactor, hlname, hlat⟩ :=
    lookup_entryJson action changes actorID name at_
  have htext : textOf (lookupField "actor_name" fields) = name := by
    rcases hlname with h | ⟨h, rfl⟩
    · rw [h, hname]
    · rw [h]
      rfl
  rw [hfields, recodeEntry_obj, hlaction, haction, hlchanges, hlactor, htext, hlat, hat]

theorem recodedActor_recodedActor : recodedActor (recodedActor actorID) = recodedActor actorID := by
  rcases actorID with _ | j
  · rfl
  · have hj := j.recoded_recoded
    cases j with
    | null => rfl
    | _ => exact congrArg some hj

end Entries

theorem textOf_textOf (o : Option Json) : textOf (some (textOf o)) = textOf o := by
  rcases o with _ | j
  · rfl
  · cases j <;> rfl

theorem timeOf_timeOf (o : Option Json) : timeOf (some (timeOf o)) = timeOf o := by
  rcases o with _ | j
  · rfl
  · cases j <;> rfl

/-- Appending once more changes nothing more. -/
theorem recodeEntry_recodeEntry (j : Json) : recodeEntry (recodeEntry j) = recodeEntry j := by
  have hparts : ∃ o₁ o₂ o₃ o₄ o₅, recodeEntry j =
      entryJson (textOf o₁) (sortFields (recodedFields (fieldsOf o₂))) (recodedActor o₃) (textOf o₄)
        (timeOf o₅) := by
    cases j with
    | obj fields => exact ⟨_, _, _, _, _, recodeEntry_obj fields⟩
    | _ => exact ⟨none, none, none, none, none, rfl⟩
  obtain ⟨o₁, o₂, o₃, o₄, o₅, hj⟩ := hparts
  rw [hj, recodeEntry_entryJson _ _ _ _ _ (textOf_textOf o₁) (textOf_textOf o₄) (timeOf_timeOf o₅),
    recodedActor_recodedActor, ← sortFields_recodedFields, recodedFields_recodedFields,
    sortFields_sortFields]

variable {actorID : Option Json}

/-- The integers of an entry are those of its changes and of its actor. -/
theorem mem_integers_entryJson {action name : String} {changes : List (String × Json)}
    {instant offset n : ℤ} :
    n ∈ (entryJson (.str action) changes actorID (.str name) (.time instant offset)).integers ↔
      n ∈ integersFields changes ∨ ∃ j ∈ actorID, n ∈ j.integers := by
  have happend (l₁ l₂ : List (String × Json)) :
      integersFields (l₁ ++ l₂) = integersFields l₁ ++ integersFields l₂ := by
    induction l₁ with
    | nil => rfl
    | cons p l₁ ih => rw [List.cons_append, integersFields, integersFields, ih, List.append_assoc]
  rw [entryJson.eq_def, Json.integers, happend, happend, happend, happend]
  by_cases hname : Json.str name = .str ""
  · rcases changes with _ | ⟨c, cs⟩ <;> rcases actorID with _ | a <;>
      simp [hname, integersFields, Json.integers, or_assoc]
  · rcases changes with _ | ⟨c, cs⟩ <;> rcases actorID with _ | a <;>
      simp [hname, integersFields, Json.integers, or_assoc]

theorem recodedActor_eq_self_iff : recodedActor actorID = actorID ↔
      actorID ≠ some .null ∧ ∀ j ∈ actorID, ∀ n ∈ j.integers, throughFloat n = n := by
  rcases actorID with _ | j
  · simp [recodedActor]
  · have hj := j.recoded_eq_self_iff
    cases j <;> simp_all [recodedActor]

theorem entryJson_inj {action name at_ : Json} {changes changes' : List (String × Json)}
    {actorID actorID' : Option Json}
    (h : entryJson action changes actorID name at_ = entryJson action changes' actorID' name at_) :
    changes = changes' ∧ actorID = actorID' := by
  obtain ⟨fields, hfields, -, hchanges, hactor, -⟩ :=
    lookup_entryJson action changes actorID name at_
  obtain ⟨fields', hfields', -, hchanges', hactor', -⟩ :=
    lookup_entryJson action changes' actorID' name at_
  obtain rfl : fields = fields' := Json.obj.inj (hfields.symm.trans (h.trans hfields'))
  exact ⟨hchanges.symm.trans hchanges', hactor.symm.trans hactor'⟩

/-- An entry comes back as it was: its integers do, and its actor is not a nil pointer. -/
def HistoryEntry.Durable (e : HistoryEntry) : Prop :=
  ∀ j, e.marshal = some j → (∀ n ∈ j.integers, throughFloat n = n) ∧
    (e.actorID.marshal = some .null → e.actorID = .nil)

theorem recodeEntry_eq_self_iff {e : HistoryEntry} {j : Json} (h : e.marshal = some j) :
    recodeEntry j = j ↔ (∀ n ∈ j.integers, throughFloat n = n) ∧
      (e.actorID.marshal = some .null → e.actorID = .nil) := by
  rw [marshal] at h
  obtain ⟨changes, -, h⟩ := Option.bind_eq_some_iff.mp h
  obtain ⟨actor, hactor, h⟩ := Option.bind_eq_some_iff.mp h
  obtain rfl := Option.some_inj.mp h
  have hnull : (if e.actorID = .nil then none else some actor) ≠ some Json.null ↔
      (e.actorID.marshal = some .null → e.actorID = .nil) := by
    rw [hactor]
    by_cases hnil : e.actorID = .nil
    · simp [hnil]
    · simp [hnil]
  rw [recodeEntry_entryJson _ _ _ _ _ rfl rfl rfl, sortFields_recodedFields, sortFields_sortFields]
  constructor
  · intro heq
    obtain ⟨hchanges, hactor'⟩ := entryJson_inj heq
    rw [recodedFields_eq_self_iff] at hchanges
    obtain ⟨hne, hints⟩ := recodedActor_eq_self_iff.mp hactor'
    refine ⟨fun n hn => ?_, hnull.mp hne⟩
    rcases mem_integers_entryJson.mp hn with hn | ⟨i, hi, hn⟩
    · exact hchanges n hn
    · exact hints i hi n hn
  · rintro ⟨hints, hne⟩
    have hchanges := (recodedFields_eq_self_iff (sortFields changes)).mpr
      fun n hn => hints n (mem_integers_entryJson.mpr (.inl hn))
    have hactor' := recodedActor_eq_self_iff.mpr
      ⟨hnull.mpr hne, fun i hi n hn => hints n (mem_integers_entryJson.mpr (.inr ⟨i, hi, hn⟩))⟩
    rw [hchanges, hactor']

/-! ### Histories -/

/-- The history after some entries were appended, one after the other. -/
def history (es : List HistoryEntry) : GoString := es.foldl appendHistoryJSON (.text "")

theorem history_append (es : List HistoryEntry) (e : HistoryEntry) :
    history (es ++ [e]) = appendHistoryJSON (history es) e := by
  rw [history, List.foldl_append]
  rfl

/-- Up to numbers, the history holds the entries that were appended. -/
theorem exists_trail_history (es : List HistoryEntry) : ∃ entries,
    trail (.str (history es)) = some entries ∧
      entries.map recodeEntry = (es.filterMap marshal).map recodeEntry := by
  induction es using List.reverseRecOn with
  | nil => exact ⟨[], rfl, rfl⟩
  | append_singleton es e ih =>
    obtain ⟨entries, htrail, hentries⟩ := ih
    have hstep := trail_appendHistoryJSON e htrail
    have htwice : (entries.map recodeEntry).map recodeEntry = entries.map recodeEntry := by
      rw [List.map_map]
      exact List.map_congr_left fun j _ => recodeEntry_recodeEntry j
    rw [history_append, List.filterMap_append, List.map_append, ← hentries]
    rcases he : e.marshal with _ | j
    · rw [he] at hstep
      refine ⟨entries, hstep, ?_⟩
      simp [he]
    · rw [he] at hstep
      refine ⟨entries.map recodeEntry ++ [j], hstep, ?_⟩
      rw [List.map_append, htwice]
      simp [he]

/-- **Appending to a history.** The array holds the earlier entries as they were and the new one
behind them if and only if every integer in the earlier ones comes back from a float. -/
theorem history_kept_iff (es : List HistoryEntry) (e : HistoryEntry) (j : Json)
    (he : e.marshal = some j) :
    trail (.str (history (es ++ [e]))) = some (es.filterMap marshal ++ [j]) ↔
      ∀ x ∈ es, x.Durable := by
  obtain ⟨entries, htrail, hentries⟩ := exists_trail_history es
  have hstep := trail_appendHistoryJSON e htrail
  rw [he] at hstep
  rw [history_append, hstep, hentries, Option.some_inj, List.append_left_inj]
  have hmap : ((es.filterMap marshal).map recodeEntry =
      es.filterMap marshal) ↔
        ∀ i ∈ es.filterMap marshal, recodeEntry i = i :=
    (Eq.congr_right (List.map_id _).symm).trans List.map_inj_left
  rw [hmap]
  constructor
  · intro h x hx i hi
    exact (recodeEntry_eq_self_iff hi).mp (h i (List.mem_filterMap.mpr ⟨x, hx, hi⟩))
  · intro h i hi
    obtain ⟨x, hx, hmarshal⟩ := List.mem_filterMap.mp hi
    exact (recodeEntry_eq_self_iff hmarshal).mpr (h x hx i hmarshal)

/-- An entry of an actor who set the number of views. -/
def viewsEntry (actor views : Int) : HistoryEntry where
  action := "updated"
  changes := [("views", .int views)]
  actorID := .int actor
  actorName := "ann"
  at_ := { instant := 1700000000 }

theorem viewsEntry_kept :
    trail (.str (history ([viewsEntry 7 1500] ++ [viewsEntry 7 (2 ^ 53 + 1)]))) =
      some ([viewsEntry 7 1500].filterMap marshal ++
        [entryJson (.str "updated") [("views", .int (2 ^ 53 + 1))] (some (.int 7)) (.str "ann")
          (.time 1700000000 0)]) := by
  refine (history_kept_iff _ _ _ rfl).mpr ?_
  intro x hx i hi
  obtain rfl := List.mem_singleton.mp hx
  obtain rfl : _ = i := Option.some_inj.mp hi
  refine ⟨fun n hn => throughFloat_of_lt ?_, nofun⟩
  revert n
  decide +kernel

/-- The largest integer is no float, and is another number after the next entry. -/
theorem viewsEntry_not_kept :
    trail (.str (history [viewsEntry 7 (2 ^ 63 - 1), viewsEntry 7 5])) =
      some [entryJson (.str "updated") [("views", .int 9223372036854776000)] (some (.int 7))
          (.str "ann") (.time 1700000000 0),
        entryJson (.str "updated") [("views", .int 5)] (some (.int 7)) (.str "ann")
          (.time 1700000000 0)] ∧
    trail (.str (history [viewsEntry 7 (2 ^ 63 - 1), viewsEntry 7 5])) ≠
      some ([viewsEntry 7 (2 ^ 63 - 1), viewsEntry 7 5].filterMap marshal) := by
  decide +kernel

end Kiya
