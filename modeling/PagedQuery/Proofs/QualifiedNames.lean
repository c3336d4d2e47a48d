import Mathlib.Data.List.Forall2
import Mathlib.Data.List.TakeWhile
import PagedQuery.Operator.Join
import PagedQuery.Proofs.ActAnswers

/-!
# Qualified names

The name of an attribute is its table and its column with a point between them, and a name is looked
up by its first point. So an attribute is found by its own name if its table has no point. An
attribute whose table has one is never found, and its name may be that of another attribute, which
is found in its place.
-/

namespace PagedQuery

theorem Attribute.toList_name (a : Attribute) :
    a.name.toList = a.table.toList ++ '.' :: a.column.toList := by
  rw [name, String.toList_append, String.toList_append, List.append_assoc]
  rfl

namespace Schema

variable {schema : Schema} {a : Attribute} {name table column : String}

/-- A name is split into a table without a point and a column, with a point between them. -/
theorem splitName?_eq_some_iff :
    splitName? name = some (table, column) ↔
      '.' ∉ table.toList ∧ name.toList = table.toList ++ '.' :: column.toList := by
  have hwhole := List.takeWhile_append_dropWhile (p := (· != '.')) (l := name.toList)
  constructor
  · intro h
    rw [splitName?] at h
    split at h
    · cases h
    · next point rest hrest =>
      obtain ⟨htable, hcolumn⟩ := Prod.mk.inj (Option.some.inj h)
      obtain rfl : point = '.' := by
        have hfirst := List.head?_dropWhile_not (· != '.') name.toList
        rw [hrest] at hfirst
        simpa using hfirst
      rw [← htable, ← hcolumn, String.toList_ofList, String.toList_ofList]
      refine ⟨fun hmem => ?_, ?_⟩
      · simpa using List.mem_takeWhile_imp hmem
      · rw [← hrest, hwhole]
  · rintro ⟨htable, hname⟩
    have hfront : ∀ c ∈ table.toList, (c != '.') = true := fun c hc => by
      simpa using fun h : c = '.' => htable (h ▸ hc)
    rw [splitName?, hname, List.takeWhile_append_of_pos hfront, List.dropWhile_append_of_pos hfront]
    simp

theorem splitName?_name (h : '.' ∉ a.table.toList) :
    splitName? a.name = some (a.table, a.column) :=
  splitName?_eq_some_iff.mpr ⟨h, a.toList_name⟩

theorem exists_splitName?_name (a : Attribute) :
    ∃ table column, splitName? a.name = some (table, column) := by
  cases h : splitName? a.name with
  | some parts => exact ⟨parts.1, parts.2, rfl⟩
  | none =>
    rw [splitName?] at h
    split at h
    · next hnone =>
      have hpoint : '.' ∈ a.name.toList := by simp [a.toList_name]
      simpa using List.dropWhile_eq_nil_iff.mp hnone '.' hpoint
    · cases h

/-- The position of the first attribute with the table and the column of the given one. -/
def firstLike? (schema : Schema) (a : Attribute) : Option Nat :=
  schema.findIdx? fun b => b.table == a.table && b.column == a.column

/-- The field of a row in the first column with the table and the name of the given one. -/
def fieldLike? (schema : Schema) (a : Attribute) (row : Row) : Option Field :=
  (schema.firstLike? a).bind (row[·]?)

/-- Among the attributes with a qualified name, the first one whose table has no point is found. -/
theorem position?_name (schema : Schema) (a : Attribute) :
    schema.position? a.name =
      schema.findIdx? fun b => !b.table.toList.contains '.' && b.name == a.name := by
  obtain ⟨table, column, hsplit⟩ := exists_splitName?_name a
  rw [position?, hsplit]
  refine congrArg (List.findIdx? · schema) (funext fun b => ?_)
  rw [Bool.eq_iff_iff]
  simp only [Bool.and_eq_true, beq_iff_eq, Bool.not_eq_true', List.contains_eq_mem,
    decide_eq_false_iff_not]
  obtain ⟨htable, hname⟩ := splitName?_eq_some_iff.mp hsplit
  constructor
  · rintro ⟨rfl, rfl⟩
    exact ⟨htable, String.toList_inj.mp (b.toList_name.trans hname.symm)⟩
  · rintro ⟨hb, hsame⟩
    have hown := splitName?_name hb
    rw [hsame, hsplit] at hown
    obtain ⟨rfl, rfl⟩ := Prod.mk.inj (Option.some.inj hown)
    exact ⟨rfl, rfl⟩

theorem exists_of_position?_name {i : Nat} (h : schema.position? a.name = some i) :
    ∃ b, schema[i]? = some b ∧ b.name = a.name := by
  rw [position?_name] at h
  obtain ⟨hi, hfound, -⟩ := List.findIdx?_eq_some_iff_getElem.mp h
  rw [Bool.and_eq_true, beq_iff_eq] at hfound
  exact ⟨schema[i], List.getElem?_eq_getElem hi, hfound.2⟩

theorem exists_firstLike? (ha : a ∈ schema) :
    ∃ i b, schema.firstLike? a = some i ∧ schema[i]? = some b ∧ b.table = a.table ∧
      b.column = a.column := by
  cases h : schema.firstLike? a with
  | none => simpa using List.findIdx?_eq_none_iff.mp h a ha
  | some i =>
    obtain ⟨hi, hlike, -⟩ := List.findIdx?_eq_some_iff_getElem.mp h
    rw [Bool.and_eq_true, beq_iff_eq, beq_iff_eq] at hlike
    exact ⟨i, schema[i], rfl, List.getElem?_eq_getElem hi, hlike⟩

/-- An attribute is found by its own name if and only if its table has no point. -/
theorem position?_name_eq_firstLike?_iff (ha : a ∈ schema) :
    schema.position? a.name = schema.firstLike? a ↔ '.' ∉ a.table.toList := by
  constructor
  · intro hfound
    obtain ⟨i, b, hfirst, hb, htable, -⟩ := exists_firstLike? ha
    rw [hfirst, position?_name] at hfound
    obtain ⟨hi, hplain, -⟩ := List.findIdx?_eq_some_iff_getElem.mp hfound
    obtain rfl : schema[i] = b := Option.some.inj ((List.getElem?_eq_getElem hi).symm.trans hb)
    rw [htable, Bool.and_eq_true, Bool.not_eq_true', List.contains_eq_mem,
      decide_eq_false_iff_not] at hplain
    exact hplain.1
  · intro hplain
    rw [position?, splitName?_name hplain, firstLike?]

end Schema

theorem Row.compareOn?_eq_eq_iff {l r : Row} {leftKey rightKey : List Nat} :
    compareOn? l r leftKey rightKey = some .eq ↔ ∀ positions ∈ leftKey.zip rightKey,
      ∃ x y, l[positions.1]? = some x ∧ r[positions.2]? = some y ∧ x.compare y = .eq := by
  induction leftKey generalizing rightKey with
  | nil => simp [compareOn?]
  | cons i leftKey ih =>
    cases rightKey with
    | nil => simp [compareOn?]
    | cons j rightKey =>
      rw [List.zip_cons_cons, List.forall_mem_cons, ← ih, compareOn?]
      cases l[i]? with
      | none => simp
      | some x =>
        cases r[j]? with
        | none => simp
        | some y =>
          cases h : x.compare y <;> simp [h]

/-- Two functions give some list alike if they agree on all items. -/
theorem exists_forall₂_eq_some_iff {α β : Type} {f g : α → Option β} {as : List α}
    (hg : ∀ a ∈ as, ∃ b, g a = some b) :
    (∃ bs, List.Forall₂ (fun a b => f a = some b) as bs ∧
      List.Forall₂ (fun a b => g a = some b) as bs) ↔ ∀ a ∈ as, f a = g a := by
  induction as with
  | nil => simp
  | cons a as ih =>
    rw [List.forall_mem_cons] at hg ⊢
    rw [← ih hg.2]
    constructor
    · rintro ⟨_, hf, hg⟩
      cases hf with
      | cons ha has =>
        cases hg with
        | cons ha' has' => exact ⟨ha.trans ha'.symm, _, has, has'⟩
    · rintro ⟨ha, bs, has, has'⟩
      obtain ⟨b, hb⟩ := hg.1
      exact ⟨b :: bs, .cons (ha.trans hb) has, .cons hb has'⟩

namespace Join

variable {left right : Schema} {conditions : List JoinCondition} {leftKey rightKey : List Nat}
  {pairs : List (Attribute × Attribute)}

theorem resolve_eq_ok_iff {schema : Schema} {name : String} {position : Nat} :
    resolve schema name = .ok position ↔ schema.position? name = some position := by
  rw [resolve]
  cases schema.position? name <;> simp

theorem resolveAll_eq_ok_iff :
    resolveAll left right conditions = .ok (leftKey, rightKey) ↔
      List.Forall₂ (fun condition i => left.position? condition.left = some i) conditions leftKey ∧
        List.Forall₂ (fun condition i => right.position? condition.right = some i) conditions
          rightKey := by
  induction conditions generalizing leftKey rightKey with
  | nil => simp [resolveAll, eq_comm]
  | cons condition conditions ih =>
    rw [resolveAll]
    constructor
    · intro h
      obtain ⟨l, hl, h⟩ := exists_of_bind_eq_ok h
      obtain ⟨r, hr, h⟩ := exists_of_bind_eq_ok h
      obtain ⟨⟨leftRest, rightRest⟩, hrest, h⟩ := exists_of_bind_eq_ok h
      obtain ⟨hleft, hright⟩ := ih.mp hrest
      cases h
      exact ⟨.cons (resolve_eq_ok_iff.mp hl) hleft, .cons (resolve_eq_ok_iff.mp hr) hright⟩
    · rintro ⟨_ | ⟨hl, hleft⟩, _ | ⟨hr, hright⟩⟩
      rw [resolve_eq_ok_iff.mpr hl, resolve_eq_ok_iff.mpr hr, ih.mpr ⟨hleft, hright⟩]
      rfl

def naming (pairs : List (Attribute × Attribute)) : List JoinCondition :=
  pairs.map fun pair => ⟨pair.1.name, pair.2.name⟩

/-- Whether the keys of a join are the first columns with the tables and the names of the given
ones. -/
def AreFirstLike (left right : Schema) (pairs : List (Attribute × Attribute))
    (leftKey rightKey : List Nat) : Prop :=
  List.Forall₂ (fun pair i => left.firstLike? pair.1 = some i) pairs leftKey ∧
    List.Forall₂ (fun pair i => right.firstLike? pair.2 = some i) pairs rightKey

theorem keys_naming_eq_ok_iff (hpairs : pairs ≠ []) :
    keys (naming pairs) left right = .ok (leftKey, rightKey) ↔
      List.Forall₂ (fun pair i => left.position? pair.1.name = some i) pairs leftKey ∧
        List.Forall₂ (fun pair i => right.position? pair.2.name = some i) pairs rightKey := by
  have hconditions : ¬(naming pairs).isEmpty := by simpa [naming] using hpairs
  rw [keys, if_neg hconditions, resolveAll_eq_ok_iff, naming, List.forall₂_map_left_iff,
    List.forall₂_map_left_iff]

/-- Keys that are the columns of some pairs match where the fields in the columns of every pair do.
-/
theorem AreFirstLike.compareOn?_eq_eq_iff (h : AreFirstLike left right pairs leftKey rightKey)
    {l r : Row} :
    Row.compareOn? l r leftKey rightKey = some .eq ↔ ∀ pair ∈ pairs, ∃ x y,
      left.fieldLike? pair.1 l = some x ∧ right.fieldLike? pair.2 r = some y ∧
        x.compare y = .eq := by
  obtain ⟨hleft, hright⟩ := h
  rw [Row.compareOn?_eq_eq_iff]
  induction hleft generalizing rightKey with
  | nil => simp
  | cons hi _ ih =>
    cases hright with
    | cons hj hright =>
      rw [List.zip_cons_cons, List.forall_mem_cons, List.forall_mem_cons, ih hright]
      simp only [Schema.fieldLike?, hi, hj, Option.bind_some]

/-- The keys of a join are the columns that its conditions name if no table of these has a point. -/
theorem exists_areFirstLike_iff (hpairs : pairs ≠ [])
    (hown : ∀ pair ∈ pairs, pair.1 ∈ left ∧ pair.2 ∈ right) :
    (∃ leftKey rightKey, keys (naming pairs) left right = .ok (leftKey, rightKey) ∧
        AreFirstLike left right pairs leftKey rightKey) ↔
      ∀ pair ∈ pairs, '.' ∉ pair.1.table.toList ∧ '.' ∉ pair.2.table.toList := by
  have hfound : (∀ pair ∈ pairs, ∃ i, left.firstLike? pair.1 = some i) ∧
      ∀ pair ∈ pairs, ∃ i, right.firstLike? pair.2 = some i :=
    ⟨fun pair hpair => (Schema.exists_firstLike? (hown pair hpair).1).imp fun _ ⟨_, h, _⟩ => h,
      fun pair hpair => (Schema.exists_firstLike? (hown pair hpair).2).imp fun _ ⟨_, h, _⟩ => h⟩
  have hleft := exists_forall₂_eq_some_iff (f := fun pair => left.position? pair.1.name) hfound.1
  have hright := exists_forall₂_eq_some_iff (f := fun pair => right.position? pair.2.name) hfound.2
  calc (∃ leftKey rightKey, keys (naming pairs) left right = .ok (leftKey, rightKey) ∧
        AreFirstLike left right pairs leftKey rightKey)
      ↔ (∀ pair ∈ pairs, left.position? pair.1.name = left.firstLike? pair.1) ∧
          ∀ pair ∈ pairs, right.position? pair.2.name = right.firstLike? pair.2 := by
        rw [← hleft, ← hright]
        simp only [keys_naming_eq_ok_iff hpairs, AreFirstLike]
        constructor
        · rintro ⟨leftKey, rightKey, ⟨hl, hr⟩, hl', hr'⟩
          exact ⟨⟨leftKey, hl, hl'⟩, rightKey, hr, hr'⟩
        · rintro ⟨⟨leftKey, hl, hl'⟩, rightKey, hr, hr'⟩
          exact ⟨leftKey, rightKey, ⟨hl, hr⟩, hl', hr'⟩
    _ ↔ ∀ pair ∈ pairs, '.' ∉ pair.1.table.toList ∧ '.' ∉ pair.2.table.toList := by
        rw [← forall₂_and]
        refine forall₂_congr fun pair hpair => ?_
        rw [Schema.position?_name_eq_firstLike?_iff (hown pair hpair).1,
          Schema.position?_name_eq_firstLike?_iff (hown pair hpair).2]

/-- An attribute is found by its own name if and only if its table has no point; otherwise the first
attribute that has the name and a table without a point is found in its place. So a join whose
conditions name attributes of both sides compares columns of these names, if it finds any, and
compares the first columns with their tables and names if and only if no table has a point. -/
theorem compares_named_columns (hpairs : pairs ≠ [])
    (hown : ∀ pair ∈ pairs, pair.1 ∈ left ∧ pair.2 ∈ right) :
    (∀ schema : Schema, ∀ a ∈ schema,
      schema.position? a.name =
        schema.findIdx? (fun b => !b.table.toList.contains '.' && b.name == a.name) ∧
      (schema.position? a.name = schema.firstLike? a ↔ '.' ∉ a.table.toList)) ∧
    (∀ leftKey rightKey, keys (naming pairs) left right = .ok (leftKey, rightKey) →
      List.Forall₂ (fun pair i => ∃ b, left[i]? = some b ∧ b.name = pair.1.name) pairs leftKey ∧
      List.Forall₂ (fun pair i => ∃ b, right[i]? = some b ∧ b.name = pair.2.name) pairs rightKey) ∧
    ((∃ leftKey rightKey, keys (naming pairs) left right = .ok (leftKey, rightKey) ∧
        AreFirstLike left right pairs leftKey rightKey) ↔
      ∀ pair ∈ pairs, '.' ∉ pair.1.table.toList ∧ '.' ∉ pair.2.table.toList) ∧
    ∀ leftKey rightKey, AreFirstLike left right pairs leftKey rightKey → ∀ l r : Row,
      Row.compareOn? l r leftKey rightKey = some .eq ↔ ∀ pair ∈ pairs, ∃ x y,
        left.fieldLike? pair.1 l = some x ∧ right.fieldLike? pair.2 r = some y ∧
          x.compare y = .eq := by
  refine ⟨fun schema a ha => ⟨schema.position?_name a, Schema.position?_name_eq_firstLike?_iff ha⟩,
    fun leftKey rightKey hkeys => ?_, ?_, fun _ _ h _ _ => h.compareOn?_eq_eq_iff⟩
  · rw [keys_naming_eq_ok_iff hpairs] at hkeys
    exact ⟨hkeys.1.imp fun _ _ => Schema.exists_of_position?_name,
      hkeys.2.imp fun _ _ => Schema.exists_of_position?_name⟩
  · exact exists_areFirstLike_iff hpairs hown

/-- Two attributes of one qualified name, which is split into the table and the column of the
first. -/
def sameNames : Schema := [.plain "a" "b.c" .int, .plain "a.b" "c" .int]

theorem compares_named_columns_sameNames :
    sameNames.position? "a.b.c" = sameNames.firstLike? (.plain "a" "b.c" .int) ∧
      ∃ leftKey rightKey, keys [⟨"a.b.c", "a.b.c"⟩] sameNames sameNames = .ok (leftKey, rightKey) ∧
        AreFirstLike sameNames sameNames [(.plain "a" "b.c" .int, .plain "a" "b.c" .int)] leftKey
          rightKey := by
  have hown : ∀ pair ∈ [(Attribute.plain "a" "b.c" .int, Attribute.plain "a" "b.c" .int)],
      pair.1 ∈ sameNames ∧ pair.2 ∈ sameNames := by decide
  obtain ⟨hlookup, -, hkeys, -⟩ := compares_named_columns (by simp) hown
  refine ⟨(hlookup sameNames (.plain "a" "b.c" .int) (by decide)).2.mpr (by decide), ?_⟩
  exact hkeys.mpr (by decide)

/-- A lone attribute whose table has a point is not found by its own name, and no join can name it.
Where another attribute has the same name, that one is found, and compared in a join. -/
theorem misses_own_column :
    (Schema.position? [.plain "a.b" "c" .int] (Attribute.plain "a.b" "c" .int).name = none ∧
      Schema.firstLike? [.plain "a.b" "c" .int] (.plain "a.b" "c" .int) = some 0 ∧
      keys (naming [(.plain "a.b" "c" .int, .plain "r" "d" .int)]) [.plain "a.b" "c" .int]
          [.plain "r" "d" .int] =
        .error (.joinAttributeNotFound "a.b.c" [.plain "a.b" "c" .int])) ∧
    sameNames[1]? = some (.plain "a.b" "c" .int) ∧
      sameNames.position? (Attribute.plain "a.b" "c" .int).name = some 0 ∧
      sameNames.firstLike? (.plain "a.b" "c" .int) = some 1 ∧
      keys (naming [(.plain "a.b" "c" .int, .plain "a" "b.c" .int)]) sameNames sameNames =
        .ok ([0], [0]) := by
  decide

end Join
end PagedQuery
