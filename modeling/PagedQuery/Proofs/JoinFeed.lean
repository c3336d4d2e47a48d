import PagedQuery.Proofs.BandJoin
import PagedQuery.Proofs.PageMachine

namespace PagedQuery
namespace Join

variable {σ τ : Type} {keys : Keys} {left : Cursor σ} {right : Cursor τ} {root : TempRoot}
  {below beside : Feed} {p : Standing σ} {q : Standing τ} {capacity : Nat} {s : State σ τ}

def feed (pageSize numBuffers : Nat) (keys : Keys) (schema : Schema) (below beside : Feed) :
    Feed := do
  let _ ← Failure.ofExcept (validateBuffers numBuffers)
  let capacity ← schema.pageCapacity pageSize
  let leftPages ← below
  let rightPages ← beside
  pure (Batch.pages capacity
    (mergeRows keys (leftPages.flatMap (·.rows)) (rightPages.flatMap (·.rows))))

/-- Two page machines as inputs of a join: they are before some pages until they are closed. -/
def machines (hkeys : keys.left.length = keys.right.length) (hleft : left.Follows root below p)
    (hright : right.Follows root beside q) : Inputs keys left right where
  root := root
  leftKind s := ∃ pages, p.before pages s
  rightKind s := ∃ pages, q.before pages s
  leftClosed := p.closed
  rightClosed := q.closed
  sameLength := hkeys
  leftCloses s hs := hleft.close s (.inr (.inr hs))
  rightCloses s hs := hright.close s (.inr (.inr hs))

def standing (hkeys : keys.left.length = keys.right.length) (hleft : left.Follows root below p)
    (hright : right.Follows root beside q) (capacity : Nat) : Standing (State σ τ) where
  closed s := s.isOpen = false ∧ p.closed s.left.source ∧ q.closed s.right.source
  failed s := s.isOpen = false ∧ p.Possible s.left.source ∧ q.Possible s.right.source
  before := FillsPages (fun _ => Ahead (machines hkeys hleft hright) capacity) capacity

theorem possible_of_ahead {hkeys : keys.left.length = keys.right.length}
    {hleft : left.Follows root below p} {hright : right.Follows root beside q} {rows : List Row}
    (h : Ahead (machines hkeys hleft hright) capacity s rows) :
    p.Possible s.left.source ∧ q.Possible s.right.source := by
  rcases h with ⟨L, R, h⟩ | ⟨-, h⟩
  · exact ⟨.inr (.inr h.left.source), .inr (.inr h.right.source)⟩
  · exact ⟨.inl h.left, .inl h.right⟩

/-- Both inputs are opened. The first one is closed again if the second one does not open. -/
theorem opens_openUp (pageSize numBuffers : Nat) (hkeys : keys.left.length = keys.right.length)
    (hleft : left.Follows root below p) (hright : right.Follows root beside q)
    (hleftKeys : ∀ pages, below = .ok pages →
      ∀ row ∈ pages.flatMap (·.rows), Row.HasKey keys.left row)
    (hrightKeys : ∀ pages, beside = .ok pages →
      ∀ row ∈ pages.flatMap (·.rows), Row.HasKey keys.right row)
    (hclosed : s.isOpen = false) (hs : p.closed s.left.source) (ht : q.closed s.right.source) :
    (openUp pageSize numBuffers left right).Opens root s
      (feed pageSize numBuffers keys (left.schema ++ right.schema) below beside)
      (standing hkeys hleft hright (pageSize / Schema.rowSize (left.schema ++ right.schema))).before
      (standing hkeys hleft hright (pageSize / Schema.rowSize (left.schema ++ right.schema))).failed := by
  apply Act.opens_get_bind.mpr
  rw [if_neg (by simp [hclosed])]
  refine Act.opens_ofExcept_bind ⟨hclosed, .inl hs, .inl ht⟩ fun _ _ => ?_
  refine Act.opens_ofAnswer_bind ⟨hclosed, .inl hs, .inl ht⟩ fun capacity hcapacity => ?_
  obtain ⟨rfl, hroom⟩ := Schema.of_pageCapacity hcapacity
  apply (Act.gives_modify _).bind_opens
  have hopensLeft : (Side.onSource left.openUp).Opens root s.left below
      (fun pages side => ∃ c, p.before pages c ∧ side = { s.left with source := c })
      (fun side => ∃ c, p.failed c ∧ side = { s.left with source := c }) :=
    (hleft.openUp s.left.source hs).within
  refine Act.Opens.within_bind hopensLeft ?_ ?_
  · rintro _ ⟨c, hc, rfl⟩
    exact ⟨hclosed, .inr (.inl hc), .inl ht⟩
  rintro leftPages _ hbelow ⟨c, hc, rfl⟩
  let sized : State σ τ :=
    { s with capacity := pageSize / Schema.rowSize (left.schema ++ right.schema) }
  let half : State σ τ := { sized with left := { sized.left with source := c } }
  have hopensRight := hright.openUp s.right.source ht
  cases beside with
  | ok rightPages =>
    obtain ⟨d, hd, hgives⟩ := hopensRight
    let opened : State σ τ := { half with right := { half.right with source := d } }
    have hopened : (onRight (Side.onSource right.openUp)).Gives root half () opened :=
      gives_onRight (s := half) (Side.gives_onSource hgives)
    obtain ⟨t, hstands, -, hload⟩ := exists_gives_load (machines hkeys hleft hright) opened rfl
      (hleft.supplies hc) (hright.supplies hd) (hleftKeys leftPages hbelow)
      (hrightKeys rightPages rfl)
    exact ⟨t, ⟨hroom, 0, _, .inl ⟨_, _, hstands⟩, rfl⟩, hopened.attempt.bind hload⟩
  | error f =>
    have hfails : (onRight (Side.onSource right.openUp)).FailsIn root half f fun t =>
        ∃ side, (∃ d, q.failed d ∧ side = { half.right with source := d }) ∧
          t = { half with right := side } :=
      Act.FailsIn.within (Act.FailsIn.within hopensRight)
    obtain ⟨_, ⟨_, ⟨d, hd, rfl⟩, rfl⟩, hattempt⟩ := hfails.exists_attempt
    obtain ⟨c', hc', hclose⟩ := hleft.close c (.inr (.inr ⟨_, hc⟩))
    let refused : State σ τ := { half with right := { half.right with source := d } }
    have hcloses : (onLeft (Side.onSource left.close)).Gives root refused ()
        { refused with left := { refused.left with source := c' } } :=
      gives_onLeft (s := refused) (Side.gives_onSource hclose)
    refine hattempt.bind_opens (hcloses.attempt.bind_failsIn (Act.FailsIn.bind ?_))
    exact ⟨rfl, hclosed, .inl hc', .inr (.inl hd)⟩

theorem exists_gives_close (hleft : left.Follows root below p) (hright : right.Follows root beside q)
    (hs : p.Possible s.left.source) (ht : q.Possible s.right.source) :
    ∃ t, (t.isOpen = false ∧ p.closed t.left.source ∧ q.closed t.right.source) ∧
      (close left right).Gives root s () t := by
  obtain ⟨c, hc, hcloseLeft⟩ := hleft.close s.left.source hs
  obtain ⟨d, hd, hcloseRight⟩ := hright.close s.right.source ht
  let fresh : State σ τ := reset s
  let half : State σ τ := { fresh with left := { fresh.left with source := c } }
  let closed : State σ τ := { half with right := { half.right with source := d } }
  have hcloses : (onLeft (Side.onSource left.close)).Gives root fresh () half :=
    gives_onLeft (s := fresh) (Side.gives_onSource hcloseLeft)
  have hcloses' : (onRight (Side.onSource right.close)).Gives root half () closed :=
    gives_onRight (s := half) (Side.gives_onSource hcloseRight)
  refine ⟨{ closed with isOpen := false, isAtEnd := false }, ⟨rfl, hc, hd⟩, ?_⟩
  refine (Act.gives_modify _).bind (hcloses.attempt.bind (hcloses'.attempt.bind ?_))
  exact (Act.gives_modify _).bind ((Act.gives_ofAnswer rfl).bind (Act.gives_ofAnswer rfl))

/-- A join hands out the pairs of what its inputs hand out. -/
theorem follows (pageSize numBuffers : Nat) (hkeys : keys.left.length = keys.right.length)
    (hleft : left.Follows root below p) (hright : right.Follows root beside q)
    (hleftKeys : ∀ pages, below = .ok pages →
      ∀ row ∈ pages.flatMap (·.rows), Row.HasKey keys.left row)
    (hrightKeys : ∀ pages, beside = .ok pages →
      ∀ row ∈ pages.flatMap (·.rows), Row.HasKey keys.right row)
    (hmemory : fitsMemory (pageSize / Schema.rowSize (left.schema ++ right.schema))
      Batch.rowRoom = true) :
    (overSorted pageSize numBuffers keys left right).Follows root
      (feed pageSize numBuffers keys (left.schema ++ right.schema) below beside)
      (standing hkeys hleft hright (pageSize / Schema.rowSize (left.schema ++ right.schema))) where
  start := ⟨rfl, hleft.start, hright.start⟩
  openUp := by
    rintro s ⟨hclosed, hs, ht⟩
    exact opens_openUp pageSize numBuffers hkeys hleft hright hleftKeys hrightKeys hclosed hs ht
  reopen _ s := by
    rintro ⟨-, _, _, hs, -⟩
    exact Act.gives_unless_isOpen State.isOpen hs.isOpen
  page _ _ _ hs :=
    (fills (machines hkeys hleft hright) pageSize numBuffers hmemory).exists_gives_page hs
  ending _ hs :=
    (fills (machines hkeys hleft hright) pageSize numBuffers hmemory).exists_gives_none hs
  refuse := by
    rintro s (⟨hclosed, -⟩ | ⟨hclosed, -⟩)
    all_goals
      refine Act.ensures_get_bind.mpr ?_
      rw [if_pos (by simp [hclosed])]
      exact ⟨rfl, rfl⟩
  close := by
    intro s hs
    have hpossible : p.Possible s.left.source ∧ q.Possible s.right.source := by
      rcases hs with ⟨-, hs, ht⟩ | ⟨-, hs, ht⟩ | ⟨pages, -, _, _, hs, -⟩
      · exact ⟨.inl hs, .inl ht⟩
      · exact ⟨hs, ht⟩
      · exact possible_of_ahead hs
    exact exists_gives_close hleft hright hpossible.1 hpossible.2
  nonempty _ _ hs := hs.rows_ne_nil

end Join
end PagedQuery
