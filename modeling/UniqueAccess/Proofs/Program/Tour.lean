import UniqueAccess.Proofs.Program.Walk

/-!
# Walks that know where they are

A tour is a walk that remembers at every name in whose blocks it stands. A name that is listed twice
may be met at different depths, so that the depth belongs to the tour and not to the name.
-/

namespace UniqueAccess.Program

/-- The walk through a block inside the blocks of the owners, the innermost first, ends and meets
these names in this order, each inside the blocks of these owners. -/
inductive Toured (p : Program) (scope : WalkScope) :
    List StmtId → Block → List (List StmtId × StmtId) → Prop
  | nil {owners : List StmtId} : Toured p scope owners [] []
  | unknown {owners : List StmtId} {rest : Block} {tour : List (List StmtId × StmtId)}
      {id : StmtId} : p.stmt? id = none → Toured p scope owners rest tour →
      Toured p scope owners (id :: rest) ((owners, id) :: tour)
  | known {owners : List StmtId} {s : Stmt} {inner : List (List StmtId × StmtId)} {rest : Block}
      {tour : List (List StmtId × StmtId)} {id : StmtId} : p.stmt? id = some s →
      Toured p scope (id :: owners) (nested scope s) inner → Toured p scope owners rest tour →
      Toured p scope owners (id :: rest) ((owners, id) :: (inner ++ tour))

variable {p : Program} {scope : WalkScope} {owners : List StmtId} {b b' : Block}
  {tour tour' : List (List StmtId × StmtId)}

theorem Toured.walked (h : p.Toured scope owners b tour) :
    p.Walked scope b (tour.map Prod.snd) := by
  induction h with
  | nil => exact .nil
  | unknown hs _ ih => exact .unknown hs ih
  | known hs _ _ ihinner ih =>
    rw [List.map_cons, List.map_append]
    exact .known hs ihinner ih

theorem Toured.append (h : p.Toured scope owners b tour) (h' : p.Toured scope owners b' tour') :
    p.Toured scope owners (b ++ b') (tour ++ tour') := by
  induction h with
  | nil => exact h'
  | unknown hs _ ih => exact .unknown hs (ih h')
  | known hs hinner _ _ ih =>
    rw [List.cons_append, List.cons_append, List.append_assoc]
    exact .known hs hinner (ih h')

/-- A name and the owners around it, the innermost first: the outermost stands in the block, and
each of them owns the one before it. -/
inductive Route (p : Program) (scope : WalkScope) (b : Block) : List StmtId → Prop
  | top {id : StmtId} : id ∈ b → Route p scope b [id]
  | inside {outer id : StmtId} {owners : List StmtId} : Route p scope b (outer :: owners) →
      p.Owns scope outer id → Route p scope b (id :: outer :: owners)

theorem Toured.routes_inside (h : p.Toured scope owners b tour)
    (hroutes : ∀ id ∈ b, p.Route scope b' (id :: owners)) :
    ∀ v ∈ tour, p.Route scope b' (v.2 :: v.1) := by
  induction h with
  | nil => exact nofun
  | unknown hs _ ih =>
    rw [List.forall_mem_cons] at hroutes ⊢
    exact ⟨hroutes.1, ih hroutes.2⟩
  | known hs _ _ ihinner ih =>
    rw [List.forall_mem_cons] at hroutes
    rw [List.forall_mem_cons, List.forall_mem_append]
    exact ⟨hroutes.1, ihinner fun id hid => hroutes.1.inside ⟨_, hs, hid⟩, ih hroutes.2⟩

theorem Toured.routes (h : p.Toured scope [] b tour) : ∀ v ∈ tour, p.Route scope b (v.2 :: v.1) :=
  h.routes_inside fun _ hid => .top hid

end UniqueAccess.Program
