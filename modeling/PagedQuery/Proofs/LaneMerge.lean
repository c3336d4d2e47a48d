import PagedQuery.Operator.MergeSort.Merge
import PagedQuery.Proofs.ActAnswers
import PagedQuery.Proofs.KeyOrder
import PagedQuery.Proofs.RunStreams

/-!
# Merging sorted runs

The lanes of a merge hold what is left of its runs. The row taken next comes before all rows of
earlier runs and is not behind any of later ones, so it is the first in the stable sort of all that
is left, run after run. The merge of sorted runs is therefore the stable sort of the runs in a row.
-/

namespace PagedQuery

namespace Lane

/-- The lane of what can be read of a run, unless the run is at its end. -/
def ofStream? (key : List Nat) (run : Nat) (stream : RunFile.Stream) :
    Except Failure (Option (Lane RunFile.Stream)) :=
  match stream.rows, stream.fault with
  | row :: rows, fault =>
    match Row.project? row key with
    | some values => .ok (some ⟨values, row, run, ⟨rows, fault⟩⟩)
    | none => .error .outOfRange
  | [], some e => .error (.error e)
  | [], none => .ok none

/-- The rows of all lanes, merged. The number bounds the rows. -/
def merge (key : List Nat) (descending : Bool) :
    Nat → List (Lane RunFile.Stream) → Except Failure (List Row)
  | 0, _ => .ok []
  | steps + 1, lanes =>
    match popFirst descending lanes with
    | none => .ok []
    | some (lane, others) => do
      let next ← ofStream? key lane.run lane.rest
      let rows ← merge key descending steps (next.toList ++ others)
      pure (lane.row :: rows)

def ofStreams (key : List Nat) (streams : List RunFile.Stream) :
    Except Failure (List (Lane RunFile.Stream)) := do
  let lanes ← streams.zipIdx.mapM fun (stream, run) => ofStream? key run stream
  pure lanes.reduceOption

end Lane

def mergeStreams (key : List Nat) (descending : Bool) (streams : List RunFile.Stream) :
    Except Failure (List Row) := do
  let lanes ← Lane.ofStreams key streams
  Lane.merge key descending (total (fun stream => stream.rows.length) streams) lanes

theorem mergeStreams_of_ofStreams {key : List Nat} {descending : Bool}
    {streams : List RunFile.Stream} {lanes : List (Lane RunFile.Stream)}
    (h : Lane.ofStreams key streams = .ok lanes) :
    mergeStreams key descending streams =
      Lane.merge key descending (total (fun stream => stream.rows.length) streams) lanes := by
  rw [mergeStreams, h]
  rfl

namespace Lane

/-- The lane of what is left of a run. -/
def ofRows? (key : List Nat) (run : Nat) : List Row → Option (Lane RunFile.Stream)
  | [] => none
  | row :: rows => some ⟨Row.keyOf key row, row, run, ⟨rows, none⟩⟩

def ofRuns (key : List Nat) : Nat → List (List Row) → List (Lane RunFile.Stream)
  | _, [] => []
  | run, rows :: runs => (ofRows? key run rows).toList ++ ofRuns key (run + 1) runs

variable {ρ : Type} {key : List Nat} {descending : Bool} {all : List Row}

theorem ofStream?_of_hasKey {rows : List Row} (h : ∀ row ∈ rows, Row.HasKey key row) (run : Nat) :
    ofStream? key run ⟨rows, none⟩ = .ok (ofRows? key run rows) := by
  cases rows with
  | nil => rfl
  | cons row rows =>
    have hkey := Row.project?_of_hasKey (h row List.mem_cons_self)
    simp only [ofStream?, hkey]
    rfl

theorem ofRuns_append (key : List Nat) (run : Nat) (front back : List (List Row)) :
    ofRuns key run (front ++ back) = ofRuns key run front ++ ofRuns key (run + front.length) back := by
  induction front generalizing run with
  | nil => rfl
  | cons rows front ih =>
    rw [List.cons_append, ofRuns, ofRuns, ih, List.append_assoc, List.length_cons]
    congr 3
    omega

theorem mem_ofRuns {run : Nat} {runs : List (List Row)} {lane : Lane RunFile.Stream} :
    lane ∈ ofRuns key run runs ↔ ∃ front row rows back, runs = front ++ (row :: rows) :: back ∧
      lane = ⟨Row.keyOf key row, row, run + front.length, ⟨rows, none⟩⟩ := by
  induction runs generalizing run with
  | nil => simp [ofRuns]
  | cons first runs ih =>
    rw [ofRuns, List.mem_append, ih, Option.mem_toList]
    constructor
    · rintro (hfirst | ⟨front, row, rows, back, rfl, rfl⟩)
      · cases first with
        | nil => cases hfirst
        | cons row rows => exact ⟨[], row, rows, runs, rfl, (Option.some.inj hfirst).symm⟩
      · refine ⟨first :: front, row, rows, back, rfl, ?_⟩
        rw [List.length_cons]
        congr 1
        omega
    · rintro ⟨_ | ⟨head, front⟩, row, rows, back, hruns, rfl⟩
      · obtain ⟨rfl, rfl⟩ := List.cons.inj hruns
        exact .inl rfl
      · obtain ⟨rfl, rfl⟩ := List.cons.inj hruns
        refine .inr ⟨front, row, rows, back, rfl, ?_⟩
        rw [List.length_cons]
        congr 1
        omega

/-- The order of lanes by their rows and then by their runs. -/
def orderBy (o : KeyOrder key descending all) : Lane ρ → Lane ρ → Ordering :=
  compareLex (fun a b => o.compare a.row b.row) (compareOn Lane.run)

theorem transCmp_orderBy (o : KeyOrder key descending all) :
    Std.TransCmp (orderBy o : Lane ρ → Lane ρ → Ordering) := by
  have hrow := Row.transCmp_comap (Lane.row : Lane ρ → Row) o.transCmp
  exact inferInstanceAs (Std.TransCmp (compareLex _ _))

/-- Whether a lane holds rows of which the first is at its head, with its key. -/
def IsLane (key : List Nat) (all : List Row) (lane : Lane ρ) : Prop :=
  lane.row ∈ all ∧ lane.key = Row.keyOf key lane.row

theorem order_eq (o : KeyOrder key descending all) {a b : Lane ρ}
    (ha : IsLane key all a) (hb : IsLane key all b) : order descending a b = orderBy o a b := by
  rw [order, ha.2, hb.2, o.agrees a.row ha.1 b.row hb.1]
  rfl

theorem eq_nil_of_popFirst {lanes : List (Lane ρ)} (h : popFirst descending lanes = none) :
    lanes = [] := by
  cases lanes with
  | nil => rfl
  | cons a lanes =>
    rw [popFirst] at h
    cases hrest : popFirst descending lanes with
    | none =>
      rw [hrest] at h
      cases h
    | some found =>
      rw [hrest] at h
      dsimp only at h
      split at h <;> cases h

theorem popFirst_perm {lanes others : List (Lane ρ)} {lane : Lane ρ}
    (h : popFirst descending lanes = some (lane, others)) : lanes.Perm (lane :: others) := by
  induction lanes generalizing lane others with
  | nil => cases h
  | cons a lanes ih =>
    rw [popFirst] at h
    cases hrest : popFirst descending lanes with
    | none =>
      rw [hrest] at h
      obtain ⟨rfl, rfl⟩ := Prod.mk.inj (Option.some.inj h)
      rw [eq_nil_of_popFirst hrest]
    | some found =>
      obtain ⟨b, rest⟩ := found
      rw [hrest] at h
      dsimp only at h
      split at h
      · obtain ⟨rfl, rfl⟩ := Prod.mk.inj (Option.some.inj h)
        exact ((ih hrest).cons a).trans (.swap b a rest)
      · obtain ⟨rfl, rfl⟩ := Prod.mk.inj (Option.some.inj h)
        exact (ih hrest).cons a

theorem isLE_of_popFirst (o : KeyOrder key descending all) {lanes others : List (Lane ρ)}
    {lane : Lane ρ} (hlanes : ∀ a ∈ lanes, IsLane key all a)
    (h : popFirst descending lanes = some (lane, others)) :
    ∀ a ∈ others, (orderBy o lane a).isLE = true := by
  have htrans : Std.TransCmp (orderBy o : Lane ρ → Lane ρ → Ordering) := transCmp_orderBy o
  induction lanes generalizing lane others with
  | nil => cases h
  | cons a lanes ih =>
    rw [List.forall_mem_cons] at hlanes
    rw [popFirst] at h
    cases hrest : popFirst descending lanes with
    | none =>
      rw [hrest] at h
      obtain ⟨rfl, rfl⟩ := Prod.mk.inj (Option.some.inj h)
      exact fun b hb => by cases hb
    | some found =>
      obtain ⟨b, rest⟩ := found
      have hle := ih hlanes.2 hrest
      have hb : IsLane key all b :=
        hlanes.2 b ((popFirst_perm hrest).mem_iff.mpr List.mem_cons_self)
      rw [hrest] at h
      simp only [order_eq o hlanes.1 hb] at h
      -- The lane in front is kept unless the best of the others comes before it.
      cases horder : orderBy o a b with
      | gt =>
        rw [horder] at h
        obtain ⟨rfl, rfl⟩ := Prod.mk.inj (Option.some.inj h)
        have hba : (orderBy o b a).isLE = true := by
          rw [htrans.eq_swap, horder]
          rfl
        rw [List.forall_mem_cons]
        exact ⟨hba, hle⟩
      | _ =>
        rw [horder] at h
        obtain ⟨rfl, rfl⟩ := Prod.mk.inj (Option.some.inj h)
        have hab : (orderBy o a b).isLE = true := by
          rw [horder]
          rfl
        rw [List.forall_mem_cons]
        exact ⟨hab, fun c hc => htrans.isLE_trans hab (hle c hc)⟩

end Lane

/-- Runs whose rows are in order. -/
def AreSorted {key : List Nat} {descending : Bool} {all : List Row}
    (o : KeyOrder key descending all) (runs : List (List Row)) : Prop :=
  ∀ rows ∈ runs, rows ⊆ all ∧ rows.Pairwise (o.le · · = true)

namespace Lane

variable {key : List Nat} {descending : Bool} {all : List Row}

theorem isLane_of_mem_ofRuns {o : KeyOrder key descending all} {runs : List (List Row)}
    (hruns : AreSorted o runs) {run : Nat} {lane : Lane RunFile.Stream} (h : lane ∈ ofRuns key run runs) :
    IsLane key all lane := by
  obtain ⟨front, row, rows, back, rfl, rfl⟩ := mem_ofRuns.mp h
  have hmem : row :: rows ∈ front ++ (row :: rows) :: back :=
    List.mem_append_right front List.mem_cons_self
  exact ⟨(hruns _ hmem).1 List.mem_cons_self, rfl⟩

/-- What a row at the head of a lane precedes, it precedes all rows of that lane. -/
theorem exists_lane_of_mem {o : KeyOrder key descending all} {runs : List (List Row)}
    (hruns : AreSorted o runs) (run : Nat) {row : Row} (h : row ∈ runs.flatten) :
    ∃ lane ∈ ofRuns key run runs, run ≤ lane.run ∧ lane.run < run + runs.length ∧
      o.le lane.row row = true := by
  obtain ⟨rows, hrows, hrow⟩ := List.mem_flatten.mp h
  obtain ⟨front, back, rfl⟩ := List.append_of_mem hrows
  cases rows with
  | nil => cases hrow
  | cons head rows =>
    have hsorted := (hruns _ hrows).2
    rw [List.pairwise_cons] at hsorted
    refine ⟨_, mem_ofRuns.mpr ⟨front, head, rows, back, rfl, rfl⟩, ?_, ?_, ?_⟩
    · exact Nat.le_add_right _ _
    · rw [List.length_append, List.length_cons]
      dsimp only
      omega
    · rcases List.mem_cons.mp hrow with rfl | hrow
      · exact (by simpa using o.orders.total row row)
      · exact hsorted.1 row hrow

variable {o : KeyOrder key descending all} {front back : List (List Row)} {row : Row}
  {rows : List Row}

theorem areSorted_tail (hruns : AreSorted o (front ++ (row :: rows) :: back)) :
    AreSorted o (front ++ rows :: back) := by
  intro part hpart
  have hsorted := hruns (row :: rows) (List.mem_append_right front List.mem_cons_self)
  rw [List.pairwise_cons] at hsorted
  rcases List.mem_append.mp hpart with hpart | hpart
  · exact hruns part (List.mem_append_left _ hpart)
  · rcases List.mem_cons.mp hpart with rfl | hpart
    · exact ⟨fun b hb => hsorted.1 (List.mem_cons_of_mem row hb), hsorted.2.2⟩
    · exact hruns part (List.mem_append_right front (List.mem_cons_of_mem _ hpart))

/-- The row taken is the first in the stable sort of all that is left. -/
theorem mergeSort_flatten_of_first (hruns : AreSorted o (front ++ (row :: rows) :: back))
    (hfront : ∀ lane ∈ ofRuns key 0 front,
      (orderBy o ⟨Row.keyOf key row, row, front.length, ⟨rows, none⟩⟩ lane).isLE = true)
    (hback : ∀ lane ∈ ofRuns key (front.length + 1) back,
      (orderBy o ⟨Row.keyOf key row, row, front.length, ⟨rows, none⟩⟩ lane).isLE = true) :
    (front ++ (row :: rows) :: back).flatten.mergeSort o.le =
      row :: (front ++ rows :: back).flatten.mergeSort o.le := by
  have htrans := o.transCmp
  have hsorted := (hruns (row :: rows) (List.mem_append_right front List.mem_cons_self)).2
  rw [List.pairwise_cons] at hsorted
  have hbefore : ∀ b ∈ front.flatten, o.le b row = false := by
    intro b hb
    have hpart : AreSorted o front := fun part hpart => hruns part (List.mem_append_left _ hpart)
    obtain ⟨lane, hlane, -, hrun, hle⟩ := exists_lane_of_mem hpart 0 hb
    have horder := Ordering.isLE_then_iff_and.mp (hfront lane hlane)
    have hgt : Ord.compare front.length lane.run = .gt := Std.compare_eq_gt.mpr (by omega)
    have hfirst : o.compare row lane.row = .lt := by
      rcases horder.2 with hlt | hle
      · exact hlt
      · rw [compareOn, hgt] at hle
        cases hle
    rw [KeyOrder.le, htrans.eq_swap, Std.TransCmp.lt_of_lt_of_isLE hfirst hle]
    rfl
  have hbehind : ∀ b ∈ rows ++ back.flatten, o.le row b = true := by
    intro b hb
    rcases List.mem_append.mp hb with hb | hb
    · exact hsorted.1 b hb
    · have hpart : AreSorted o back := fun part hpart =>
        hruns part (List.mem_append_right front (List.mem_cons_of_mem _ hpart))
      obtain ⟨lane, hlane, -, -, hle⟩ := exists_lane_of_mem hpart (front.length + 1) hb
      have horder := Ordering.isLE_then_iff_and.mp (hback lane hlane)
      exact o.orders.trans row lane.row b horder.1 hle
  simp only [List.flatten_append, List.flatten_cons, List.cons_append]
  exact o.orders.mergeSort_extract hbefore hbehind

theorem flatten_eq_nil_of_ofRuns {runs : List (List Row)} (hruns : AreSorted o runs)
    (h : ofRuns key 0 runs = []) : runs.flatten = [] := by
  rw [List.eq_nil_iff_forall_not_mem]
  intro b hb
  obtain ⟨lane, hlane, -⟩ := exists_lane_of_mem hruns 0 hb
  rw [h] at hlane
  cases hlane

/-- The merge of sorted runs is the stable sort of the runs in a row. -/
theorem merge_eq (o : KeyOrder key descending all) {steps : Nat} {lanes : List (Lane RunFile.Stream)}
    {runs : List (List Row)} (hruns : AreSorted o runs) (hlanes : lanes.Perm (ofRuns key 0 runs))
    (hsteps : runs.flatten.length ≤ steps) :
    merge key descending steps lanes = .ok (runs.flatten.mergeSort o.le) := by
  -- The induction is on the rows that are left. The lanes may stand in any order, since each knows the
  -- number of its run, and these numbers decide between equal keys.
  induction steps generalizing lanes runs with
  | zero =>
    rw [List.length_eq_zero_iff.mp (Nat.le_zero.mp hsteps), List.mergeSort_nil]
    rfl
  | succ steps ih =>
    have hvalid : ∀ a ∈ lanes, IsLane key all a := fun a ha =>
      isLane_of_mem_ofRuns hruns (hlanes.mem_iff.mp ha)
    rw [merge]
    cases hpop : popFirst descending lanes with
    | none =>
      rw [eq_nil_of_popFirst hpop] at hlanes
      rw [flatten_eq_nil_of_ofRuns hruns (List.nil_perm.mp hlanes), List.mergeSort_nil]
    | some found =>
      obtain ⟨lane, others⟩ := found
      have hperm := popFirst_perm hpop
      have hle := isLE_of_popFirst o hvalid hpop
      have hlane : lane ∈ ofRuns key 0 runs :=
        hlanes.mem_iff.mp (hperm.mem_iff.mpr List.mem_cons_self)
      obtain ⟨front, row, rows, back, rfl, rfl⟩ := mem_ofRuns.mp hlane
      rw [Nat.zero_add] at hle hperm ⊢
      have hrest := hruns (row :: rows) (List.mem_append_right front List.mem_cons_self)
      have hothers : others.Perm (ofRuns key 0 front ++ ofRuns key (front.length + 1) back) := by
        have hall := hperm.symm.trans hlanes
        rw [ofRuns_append, ofRuns, Nat.zero_add] at hall
        exact (hall.trans List.perm_middle).cons_inv
      have hnext : ofStream? key front.length ⟨rows, none⟩ = .ok (ofRows? key front.length rows) :=
        ofStream?_of_hasKey (fun b hb => o.hasKey b (hrest.1 (List.mem_cons_of_mem row hb))) _
      have hlanes' : ((ofRows? key front.length rows).toList ++ others).Perm
          (ofRuns key 0 (front ++ rows :: back)) := by
        rw [ofRuns_append, ofRuns, Nat.zero_add]
        exact (hothers.append_left _).trans (List.perm_append_comm_assoc _ _ _)
      have hlength : (front ++ rows :: back).flatten.length ≤ steps := by
        simp only [List.flatten_append, List.flatten_cons, List.length_append,
          List.length_cons] at hsteps ⊢
        omega
      have hmerge := ih (areSorted_tail hruns) hlanes' hlength
      have hfirst := mergeSort_flatten_of_first hruns
        (fun lane hlane => hle lane (hothers.mem_iff.mpr (List.mem_append_left _ hlane)))
        (fun lane hlane => hle lane (hothers.mem_iff.mpr (List.mem_append_right _ hlane)))
      rw [hfirst]
      simp only [hnext, bind, Except.bind, hmerge]
      rfl

theorem ofStreams_eq {runs : List (List Row)} (hruns : ∀ rows ∈ runs, ∀ row ∈ rows, Row.HasKey key row) :
    ofStreams key (runs.map (⟨·, none⟩)) = .ok (ofRuns key 0 runs) := by
  have hlanes : ∀ run, ((runs.map (RunFile.Stream.mk · none)).zipIdx run).mapM
      (fun entry : RunFile.Stream × Nat => ofStream? key entry.2 entry.1) =
        .ok ((runs.zipIdx run).map fun entry => ofRows? key entry.2 entry.1) := by
    induction runs with
    | nil => exact fun run => rfl
    | cons rows runs ih =>
      intro run
      rw [List.forall_mem_cons] at hruns
      rw [List.map_cons, List.zipIdx_cons, List.mapM_cons, ofStream?_of_hasKey hruns.1,
        ih hruns.2 (run + 1)]
      rfl
  have hreduce : ∀ run, ((runs.zipIdx run).map fun entry => ofRows? key entry.2 entry.1).reduceOption =
      ofRuns key run runs := by
    clear hlanes hruns
    induction runs with
    | nil => exact fun run => rfl
    | cons rows runs ih =>
      intro run
      rw [List.zipIdx_cons, List.map_cons, ofRuns, ← ih (run + 1)]
      cases ofRows? key run rows <;> rfl
  have hall := hlanes 0
  rw [ofStreams, ← hreduce 0]
  exact congrArg (fun answer => answer >>= fun lanes => pure lanes.reduceOption) hall

end Lane

theorem total_length_streams (runs : List (List Row)) :
    total (fun stream => stream.rows.length) (runs.map (RunFile.Stream.mk · none)) =
      runs.flatten.length := by
  induction runs with
  | nil => rfl
  | cons rows runs ih =>
    rw [List.map_cons, total_cons, ih, List.flatten_cons, List.length_append]

theorem mergeStreams_eq {key : List Nat} {descending : Bool} {all : List Row}
    (o : KeyOrder key descending all) {runs : List (List Row)} (hruns : AreSorted o runs) :
    mergeStreams key descending (runs.map (⟨·, none⟩)) = .ok (runs.flatten.mergeSort o.le) := by
  have hkeys : ∀ rows ∈ runs, ∀ row ∈ rows, Row.HasKey key row := fun rows hrows row hrow =>
    o.hasKey row ((hruns rows hrows).1 hrow)
  rw [mergeStreams, Lane.ofStreams_eq hkeys]
  exact Lane.merge_eq o hruns (.refl _) (Nat.le_of_eq (total_length_streams runs).symm)

/-! ### Merging rows in any order -/

namespace Lane

variable {key : List Nat} {descending : Bool}

def left (lane : Lane RunFile.Stream) : List Row := lane.row :: lane.rest.rows

/-- A run that can be read either has a lane or begins with a row that is too short for the key. -/
theorem ofStream?_cases (key : List Nat) (run : Nat) (rows : List Row) :
    (∃ lane?, ofStream? key run ⟨rows, none⟩ = .ok lane? ∧
      (∀ lane ∈ lane?.toList, lane.rest.fault = none) ∧ lane?.toList.flatMap left = rows) ∨
    ofStream? key run ⟨rows, none⟩ = .error .outOfRange ∧ ∃ row ∈ rows, ¬Row.HasKey key row := by
  cases rows with
  | nil => exact .inl ⟨none, rfl, (fun lane hlane => by cases hlane), rfl⟩
  | cons row rows =>
    cases hkey : Row.project? row key with
    | some values =>
      refine .inl ⟨some ⟨values, row, run, ⟨rows, none⟩⟩, by simp only [ofStream?, hkey], ?_, ?_⟩
      · intro lane hlane
        obtain rfl : lane = _ := List.mem_singleton.mp hlane
        rfl
      · rw [Option.toList_some, List.flatMap_singleton]
        rfl
    | none =>
      refine .inr ⟨by simp only [ofStream?, hkey], row, List.mem_cons_self, fun hrow => ?_⟩
      rw [Row.project?_of_hasKey hrow] at hkey
      cases hkey

/-- A merge gives all rows, in some order, unless one of them is too short for the key. -/
theorem merge_cases {steps : Nat} {lanes : List (Lane RunFile.Stream)}
    (hlanes : ∀ lane ∈ lanes, lane.rest.fault = none) (hsteps : (lanes.flatMap left).length ≤ steps) :
    (∃ rows, merge key descending steps lanes = .ok rows ∧ rows.Perm (lanes.flatMap left)) ∨
    merge key descending steps lanes = .error .outOfRange ∧
      ∃ row ∈ lanes.flatMap left, ¬Row.HasKey key row := by
  induction steps generalizing lanes with
  | zero =>
    rw [List.length_eq_zero_iff.mp (Nat.le_zero.mp hsteps)]
    exact .inl ⟨[], rfl, .refl _⟩
  | succ steps ih =>
    rw [merge]
    cases hpop : popFirst descending lanes with
    | none =>
      rw [eq_nil_of_popFirst hpop]
      exact .inl ⟨[], rfl, .refl _⟩
    | some found =>
      obtain ⟨⟨values, row, run, rows, fault⟩, others⟩ := found
      have hperm := popFirst_perm hpop
      have hleft := hperm.flatMap_right left
      rw [List.flatMap_cons] at hleft
      obtain rfl : fault = none := hlanes _ (hperm.mem_iff.mpr List.mem_cons_self)
      rcases ofStream?_cases key run rows with ⟨lane?, hnext, hclean, hrest⟩ | ⟨hnext, hshort⟩
      · have hlanes' : ∀ lane ∈ lane?.toList ++ others, lane.rest.fault = none :=
          List.forall_mem_append.mpr ⟨hclean, fun lane hlane =>
            hlanes lane (hperm.mem_iff.mpr (List.mem_cons_of_mem _ hlane))⟩
        have hall : (lane?.toList ++ others).flatMap left = rows ++ others.flatMap left := by
          rw [List.flatMap_append, hrest]
        have hlength := hleft.length_eq
        simp only [List.length_append, left, List.length_cons] at hlength
        rcases ih hlanes' (by rw [hall, List.length_append]; omega) with
          ⟨merged, hmerge, hmerged⟩ | ⟨hmerge, row', hrow', hshort⟩
        · refine .inl ⟨row :: merged, ?_, ?_⟩
          · simp only [hnext, bind, Except.bind, hmerge]
            rfl
          · rw [hall] at hmerged
            exact (hmerged.cons row).trans hleft.symm
        · refine .inr ⟨by simp only [hnext, bind, Except.bind, hmerge], row', ?_, hshort⟩
          rw [hall] at hrow'
          exact hleft.mem_iff.mpr (List.mem_cons_of_mem row hrow')
      · obtain ⟨row', hrow', hshort⟩ := hshort
        refine .inr ⟨by simp only [hnext, bind, Except.bind], row', ?_, hshort⟩
        exact hleft.mem_iff.mpr (List.mem_append_left _ (List.mem_cons_of_mem row hrow'))

theorem ofStreams_cases (key : List Nat) (runs : List (List Row)) :
    (∃ lanes, ofStreams key (runs.map (⟨·, none⟩)) = .ok lanes ∧
      (∀ lane ∈ lanes, lane.rest.fault = none) ∧ lanes.flatMap left = runs.flatten) ∨
    ofStreams key (runs.map (⟨·, none⟩)) = .error .outOfRange ∧
      ∃ row ∈ runs.flatten, ¬Row.HasKey key row := by
  have hruns : ∀ run,
      (∃ lanes?, ((runs.map (RunFile.Stream.mk · none)).zipIdx run).mapM
          (fun entry : RunFile.Stream × Nat => ofStream? key entry.2 entry.1) = .ok lanes? ∧
        (∀ lane ∈ lanes?.reduceOption, lane.rest.fault = none) ∧
        lanes?.reduceOption.flatMap left = runs.flatten) ∨
      ((runs.map (RunFile.Stream.mk · none)).zipIdx run).mapM
          (fun entry : RunFile.Stream × Nat => ofStream? key entry.2 entry.1) = .error .outOfRange ∧
        ∃ row ∈ runs.flatten, ¬Row.HasKey key row := by
    induction runs with
    | nil => exact fun run => .inl ⟨[], rfl, (fun lane hlane => by cases hlane), rfl⟩
    | cons rows runs ih =>
      intro run
      rw [List.map_cons, List.zipIdx_cons, List.mapM_cons, List.flatten_cons]
      rcases ofStream?_cases key run rows with ⟨lane?, hlane, hclean, hleft⟩ | ⟨hlane, row, hrow, hshort⟩
      · rcases ih (run + 1) with ⟨lanes?, hlanes, hcleans, hlefts⟩ | ⟨hlanes, row, hrow, hshort⟩
        · have hreduce : (lane? :: lanes?).reduceOption = lane?.toList ++ lanes?.reduceOption := by
            cases lane? <;> rfl
          refine .inl ⟨lane? :: lanes?, ?_, ?_, ?_⟩
          · simp only [hlane, hlanes]
            rfl
          · rw [hreduce]
            exact List.forall_mem_append.mpr ⟨hclean, hcleans⟩
          · rw [hreduce, List.flatMap_append, hleft, hlefts]
        · refine .inr ⟨?_, row, List.mem_append_right rows hrow, hshort⟩
          simp only [hlane, hlanes]
          rfl
      · refine .inr ⟨?_, row, List.mem_append_left _ hrow, hshort⟩
        simp only [hlane]
        rfl
  unfold ofStreams
  rcases hruns 0 with ⟨lanes?, hlanes, hclean, hleft⟩ | ⟨hlanes, hshort⟩
  · exact .inl ⟨lanes?.reduceOption, by rw [hlanes]; rfl, hclean, hleft⟩
  · exact .inr ⟨by rw [hlanes]; rfl, hshort⟩

end Lane

/-- Merging runs gives all their rows, unless one is too short for the key. -/
theorem mergeStreams_cases (key : List Nat) (descending : Bool) (runs : List (List Row)) :
    (∃ rows, mergeStreams key descending (runs.map (⟨·, none⟩)) = .ok rows ∧
      rows.Perm runs.flatten) ∨
    mergeStreams key descending (runs.map (⟨·, none⟩)) = .error .outOfRange ∧
      ∃ row ∈ runs.flatten, ¬Row.HasKey key row := by
  rw [mergeStreams, total_length_streams]
  rcases Lane.ofStreams_cases key runs with ⟨lanes, hlanes, hclean, hleft⟩ | ⟨hlanes, hshort⟩
  · rw [hlanes, ← hleft]
    exact Lane.merge_cases hclean (Nat.le_refl _)
  · rw [hlanes]
    exact .inr ⟨rfl, hshort⟩

/-! ### Merging up to the end -/

namespace Lane

variable {key : List Nat} {descending : Bool} {run : Nat} {stream : RunFile.Stream}

theorem of_ofStream? {lane? : Option (Lane RunFile.Stream)} (h : ofStream? key run stream = .ok lane?) :
    lane?.toList.flatMap left = stream.rows ∧
      ((∀ lane ∈ lane?.toList, lane.rest.fault = none) → stream.fault = none) := by
  obtain ⟨rows, fault⟩ := stream
  cases rows with
  | nil =>
    cases fault with
    | some e => cases h
    | none =>
      obtain rfl := Except.ok.inj h
      exact ⟨rfl, fun _ => rfl⟩
  | cons row rows =>
    simp only [ofStream?] at h
    split at h
    · obtain rfl := Except.ok.inj h
      exact ⟨List.flatMap_singleton .., fun hclean => hclean _ (List.mem_singleton.mpr rfl)⟩
    · cases h

theorem of_mapM_ofStream? {streams : List RunFile.Stream} {lanes? : List (Option (Lane RunFile.Stream))}
    (h : (streams.zipIdx run).mapM
      (fun entry : RunFile.Stream × Nat => ofStream? key entry.2 entry.1) = .ok lanes?) :
    (lanes?.reduceOption.flatMap left).length = total (fun stream => stream.rows.length) streams ∧
      ((∀ lane ∈ lanes?.reduceOption, lane.rest.fault = none) →
        ∀ stream ∈ streams, stream.fault = none) := by
  induction streams generalizing run lanes? with
  | nil =>
    obtain rfl := Except.ok.inj h
    exact ⟨rfl, fun _ => List.forall_mem_nil _⟩
  | cons stream streams ih =>
    rw [List.zipIdx_cons, List.mapM_cons] at h
    obtain ⟨lane?, hlane, h⟩ := exists_of_bind_eq_ok h
    obtain ⟨rest?, hrest, h⟩ := exists_of_bind_eq_ok h
    obtain rfl := Except.ok.inj h
    obtain ⟨hleft, hfault⟩ := of_ofStream? hlane
    obtain ⟨hlefts, hfaults⟩ := ih hrest
    have hreduce : (lane? :: rest?).reduceOption = lane?.toList ++ rest?.reduceOption := by
      cases lane? <;> rfl
    rw [hreduce]
    constructor
    · rw [List.flatMap_append, List.length_append, hleft, hlefts, total_cons]
    · intro hclean
      rw [List.forall_mem_append] at hclean
      exact List.forall_mem_cons.mpr ⟨hfault hclean.1, hfaults hclean.2⟩

/-- A merge that answers has come to the end of every lane. -/
theorem faults_of_merge {steps : Nat} {lanes : List (Lane RunFile.Stream)} {rows : List Row}
    (h : merge key descending steps lanes = .ok rows) (hsteps : (lanes.flatMap left).length ≤ steps) :
    ∀ lane ∈ lanes, lane.rest.fault = none := by
  induction steps generalizing lanes rows with
  | zero =>
    -- A lane has at least the row at its head.
    have hnone : lanes = [] := by
      cases lanes with
      | nil => rfl
      | cons lane lanes => simp [left] at hsteps
    rw [hnone]
    exact List.forall_mem_nil _
  | succ steps ih =>
    rw [merge] at h
    cases hpop : popFirst descending lanes with
    | none =>
      rw [eq_nil_of_popFirst hpop]
      exact List.forall_mem_nil _
    | some found =>
      obtain ⟨first, others⟩ := found
      rw [hpop] at h
      obtain ⟨next, hnext, h⟩ := exists_of_bind_eq_ok h
      obtain ⟨merged, hmerge, -⟩ := exists_of_bind_eq_ok h
      obtain ⟨hleft, hfault⟩ := of_ofStream? hnext
      have hperm := popFirst_perm hpop
      have hlength := (hperm.flatMap_right left).length_eq
      simp only [List.flatMap_cons, left, List.length_append, List.length_cons] at hlength
      have hclean := ih hmerge (by
        rw [List.flatMap_append, hleft, List.length_append]
        omega)
      rw [List.forall_mem_append] at hclean
      intro lane hlane
      rcases List.mem_cons.mp (hperm.mem_iff.mp hlane) with rfl | hlane
      · exact hfault hclean.1
      · exact hclean.2 lane hlane

/-- The number of rows that are allowed for does not matter if it is large enough. -/
theorem merge_congr {steps steps' : Nat} {lanes : List (Lane RunFile.Stream)}
    (h : (lanes.flatMap left).length ≤ steps) (h' : (lanes.flatMap left).length ≤ steps') :
    merge key descending steps lanes = merge key descending steps' lanes := by
  have hnone {lanes : List (Lane RunFile.Stream)} (h : (lanes.flatMap left).length ≤ 0) (n : Nat) :
      merge key descending n lanes = .ok [] := by
    cases lanes with
    | nil => cases n <;> rfl
    | cons lane lanes => simp [left] at h
  induction steps generalizing lanes steps' with
  | zero => rw [hnone h, hnone h]
  | succ steps ih =>
    rcases steps' with _ | steps'
    · rw [hnone h', hnone h']
    · rw [merge, merge]
      cases hpop : popFirst descending lanes with
      | none => rfl
      | some found =>
        obtain ⟨lane, others⟩ := found
        cases hnext : ofStream? key lane.run lane.rest with
        | error e => simp only [hnext, bind, Except.bind]
        | ok next =>
          have hlength := ((popFirst_perm hpop).flatMap_right left).length_eq
          have hleft := (of_ofStream? hnext).1
          simp only [List.flatMap_cons, left, List.length_append, List.length_cons] at hlength
          have hmerge : merge key descending steps (next.toList ++ others) =
              merge key descending steps' (next.toList ++ others) := ih
            (by rw [List.flatMap_append, hleft, List.length_append]; omega)
            (by rw [List.flatMap_append, hleft, List.length_append]; omega)
          simp only [hnext, bind, Except.bind, hmerge]

end Lane

section Streams

variable {key : List Nat} {descending : Bool} {streams : List RunFile.Stream} {rows : List Row}

/-- A merge that answers has read every run to its end. -/
theorem faults_of_mergeStreams (h : mergeStreams key descending streams = .ok rows) :
    ∀ stream ∈ streams, stream.fault = none := by
  obtain ⟨lanes, hlanes, hmerge⟩ := exists_of_bind_eq_ok h
  obtain ⟨lanes?, hlanes?, hlanes⟩ := exists_of_bind_eq_ok hlanes
  obtain rfl := Except.ok.inj hlanes
  obtain ⟨hlength, hfaults⟩ := Lane.of_mapM_ofStream? hlanes?
  exact hfaults (Lane.faults_of_merge hmerge (Nat.le_of_eq hlength))

theorem perm_of_mergeStreams (h : mergeStreams key descending streams = .ok rows) :
    rows.Perm (streams.flatMap (·.rows)) := by
  have hclean : (streams.map (·.rows)).map (RunFile.Stream.mk · none) = streams := by
    have hsame : ∀ stream ∈ streams, (RunFile.Stream.mk · none) stream.rows = id stream :=
      fun stream hstream =>
        congrArg (RunFile.Stream.mk stream.rows) (faults_of_mergeStreams h stream hstream).symm
    rw [List.map_map]
    exact (List.map_congr_left hsame).trans (List.map_id streams)
  rw [← hclean] at h
  rcases mergeStreams_cases key descending (streams.map (·.rows)) with
    ⟨merged, hmerge, hperm⟩ | ⟨hfails, -⟩
  · obtain rfl := Except.ok.inj (hmerge.symm.trans h)
    rwa [← List.flatMap_def] at hperm
  · cases hfails.symm.trans h

end Streams

end PagedQuery
