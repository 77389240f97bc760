import CacheReplay.Proofs.Store

set_option autoImplicit false

/-!
# Renaming objects

An object is known by a number, and nothing but its equality with other numbers
should matter. Two stores are renamings of each other along a function when
their cells hold the same records under other names and their indexes lead from
the other names to the same cells. Each operation on the one store goes as on
the other.
-/
namespace CacheReplay

def Fault.nameless : Fault → Fault
  | .alreadyCached _ => .alreadyCached 0
  | e => e

/-- Both results are there and related, or both are faults that differ in a name at most. -/
inductive Alike {α β : Type} (rel : α → β → Prop) : Checked α → Checked β → Prop
  | ok {a : α} {b : β} (h : rel a b) : Alike rel (.ok a) (.ok b)
  | error {e e' : Fault} (h : e'.nameless = e.nameless) : Alike rel (.error e) (.error e')

def Agree {α σ τ : Type} (rel : σ → τ → Prop) (p : α × σ) (q : α × τ) : Prop :=
  q.1 = p.1 ∧ rel p.2 q.2

namespace Alike
variable {α β γ δ : Type} {rel : α → β → Prop} {after : γ → δ → Prop}
  {x : Checked α} {y : Checked β} {k : α → Checked γ} {l : β → Checked δ}

theorem pure {a : α} {b : β} (h : rel a b) : Alike rel (pure a) (pure b) := .ok h

theorem bind (h : Alike rel x y) (next : ∀ a b, rel a b → Alike after (k a) (l b)) :
    Alike after (x >>= k) (y >>= l) := by
  cases h with
  | ok h => exact next _ _ h
  | error h => exact .error h

theorem mono {wider : α → β → Prop} (h : Alike rel x y) (imp : ∀ a b, rel a b → wider a b) :
    Alike wider x y := by
  cases h with
  | ok h => exact .ok (imp _ _ h)
  | error h => exact .error h

theorem map {g : α → γ} {g' : β → δ} (h : Alike (fun a b => after (g a) (g' b)) x y) :
    Alike after (g <$> x) (g' <$> y) := by
  cases h with
  | ok h => exact .ok h
  | error h => exact .error h

theorem bind_same {l : α → Checked δ} (x : Checked α) (next : ∀ a, Alike after (k a) (l a)) :
    Alike after (x >>= k) (x >>= l) := by
  cases x with
  | error e => exact .error rfl
  | ok a => exact next a

theorem bind_map {g : α → β} (x : Checked α) (next : ∀ a, Alike after (k a) (l (g a))) :
    Alike after (x >>= k) ((g <$> x) >>= l) := by
  cases x with
  | error e => exact .error rfl
  | ok a => exact next a

theorem foldlM {ι : Type} {k : α → ι → Checked α} {l : β → ι → Checked β} (is : List ι)
    (step : ∀ i a b, rel a b → Alike rel (k a i) (l b i)) {a : α} {b : β} (h : rel a b) :
    Alike rel (is.foldlM k a) (is.foldlM l b) := by
  induction is generalizing a b with
  | nil => exact .pure h
  | cons i is ih =>
    rw [List.foldlM_cons, List.foldlM_cons]
    exact (step i a b h).bind fun a b h => ih h

end Alike

namespace Arena
variable {α β : Type} {a : Arena α}

def map (g : α → β) (a : Arena α) : Arena β := ⟨a.cells.map (Cell.map g), a.top, a.size⟩

theorem get?_map (g : α → β) (a : Arena α) (i : Slot) : (a.map g).get? i = (a.get? i).map g := by
  simp only [get?, map, Array.getElem?_map]
  cases a.cells[i]? with
  | none => rfl
  | some c => exact c.value?_map g

theorem contains_map (g : α → β) (a : Arena α) (i : Slot) :
    (a.map g).contains i = a.contains i := by
  rw [contains, contains, get?_map, Option.isSome_map]

theorem pop_map (g : α → β) (cells : Array (Cell α)) (i : Slot) :
    pop (cells.map (Cell.map g)) i = pop cells i := by
  unfold pop
  rw [Array.getElem?_map]
  cases cells[i]? with
  | none => rfl
  | some c => cases c <;> rfl

theorem insert_map (g : α → β) (a : Arena α) (v : α) :
    (a.map g).insert (g v) = ((a.insert v).1, (a.insert v).2.map g) := by
  obtain ⟨cells, top, size⟩ := a
  cases top with
  | none => simp [map, insert, Cell.map]
  | some i => simp [map, insert, Array.map_setIfInBounds, pop_map, Cell.map]

theorem remove_map (g : α → β) (a : Arena α) (i : Slot) :
    (a.map g).remove i = ((a.remove i).1.map g, (a.remove i).2.map g) := by
  unfold remove
  rw [get?_map]
  cases a.get? i with
  | none => rfl
  | some v => simp [map, Array.map_setIfInBounds, Cell.map]

theorem modify_map {g : α → β} {h : α → α} {k : β → β} (a : Arena α) (i : Slot)
    (same : ∀ v, k (g v) = g (h v)) : (a.map g).modify i k = (a.modify i h).map g := by
  unfold modify map
  congr 1
  apply Array.ext_getElem?
  intro j
  simp only [Array.getElem?_modify, Array.getElem?_map]
  split
  · cases a.cells[j]? with
    | none => rfl
    | some c => cases c <;> simp [same, Cell.map]
  · rfl

end Arena

/-- The same request for the renamed object. -/
def Request.rename (f : Nat → Nat) (req : Request) : Request := { req with id := f req.id }

@[simp] theorem Request.rename_id (f : Nat → Nat) (req : Request) : (req.rename f).id = f req.id := rfl

theorem Request.rename_congr {f g : Nat → Nat} (req : Request) (same : f req.id = g req.id) :
    req.rename f = req.rename g := by
  rw [rename, rename, same]

theorem Request.map_rename_id (rs : List Request) : rs.map (rename fun id => id) = rs := rs.map_id

def Record.rename {μ : Type} (f : Nat → Nat) (r : Record μ) : Record μ := { r with id := f r.id }

namespace Record
variable {μ : Type} (f : Nat → Nat) (r : Record μ)

@[simp] theorem rename_id : (r.rename f).id = f r.id := rfl
@[simp] theorem rename_size : (r.rename f).size = r.size := rfl
@[simp] theorem rename_ghost : (r.rename f).ghost = r.ghost := rfl
@[simp] theorem rename_tag : (r.rename f).tag = r.tag := rfl

end Record

section
variable {μ : Type} (f : Nat → Nat) (a : Arena (Record μ))

theorem links?_rename (i : Slot) : (a.map (Record.rename f)).links? i = a.links? i := by
  rw [Arena.links?, Arena.links?, Arena.get?_map, Option.map_map]
  rfl

theorem prevOf_rename (i : Slot) : (a.map (Record.rename f)).prevOf i = a.prevOf i := by
  rw [Arena.prevOf, Arena.prevOf, links?_rename]

theorem relink_rename (i : Slot) (g : Links → Links) :
    (a.map (Record.rename f)).relink i g = (a.relink i g).map (Record.rename f) :=
  a.modify_map i fun _ => rfl

theorem setNext_rename (i n : Option Slot) :
    (a.map (Record.rename f)).setNext i n = (a.setNext i n).map (Record.rename f) := by
  cases i with
  | none => rfl
  | some i => exact relink_rename f a i fun l => { l with next := n }

theorem setPrev_rename (i p : Option Slot) :
    (a.map (Record.rename f)).setPrev i p = (a.setPrev i p).map (Record.rename f) := by
  cases i with
  | none => rfl
  | some i => exact relink_rename f a i fun l => { l with prev := p }

theorem pushFront_rename (c : Chain) (i : Slot) : c.pushFront (a.map (Record.rename f)) i =
    ((c.pushFront a i).1, (c.pushFront a i).2.map (Record.rename f)) := by
  unfold Chain.pushFront
  rw [Arena.contains_map]
  split
  · rw [relink_rename, setPrev_rename]
  · rfl

theorem unlink_rename (c : Chain) (i : Slot) : c.unlink (a.map (Record.rename f)) i =
    (fun p => (p.1, p.2.map (Record.rename f))) <$> c.unlink a i := by
  unfold Chain.unlink
  rw [links?_rename]
  cases a.links? i with
  | none => rfl
  | some l =>
    dsimp only
    rw [setNext_rename, setPrev_rename, relink_rename, map_bind]
    rfl

theorem moveToFront_rename (c : Chain) (i : Slot) : c.moveToFront (a.map (Record.rename f)) i =
    (fun p => (p.1, p.2.map (Record.rename f))) <$> c.moveToFront a i := by
  unfold Chain.moveToFront
  split
  · rfl
  · rw [unlink_rename, map_bind, bind_map_left]
    congr 1
    funext p
    dsimp only
    rw [pushFront_rename]
    rfl

end

/-- An index under other names. -/
structure Reindexed {α : Type} (f : Nat → Nat) (m m' : Std.HashMap Nat α) : Prop where
  read : ∀ id, m'[f id]? = m[id]?
  named : ∀ id e, m'[id]? = some e → ∃ k, f k = id

namespace Reindexed
variable {α : Type} {f : Nat → Nat} {m m' : Std.HashMap Nat α} (h : Reindexed f m m')
include h

variable (inj : Function.Injective f)
include inj

theorem insert (id : Nat) (e : α) : Reindexed f (m.insert id e) (m'.insert (f id) e) where
  read k := by
    simp only [Std.HashMap.getElem?_insert, beq_iff_eq, inj.eq_iff, h.read]
  named k j hk := by
    rw [Std.HashMap.getElem?_insert] at hk
    split at hk
    · rename_i same
      exact ⟨id, beq_iff_eq.mp same⟩
    · exact h.named k j hk

theorem erase (id : Nat) : Reindexed f (m.erase id) (m'.erase (f id)) where
  read k := by
    simp only [Std.HashMap.getElem?_erase, beq_iff_eq, inj.eq_iff, h.read]
  named k j hk := by
    rw [Std.HashMap.getElem?_erase] at hk
    split at hk
    · cases hk
    · exact h.named k j hk

end Reindexed

/-- A store that holds the same records in the same cells under other names. -/
structure Store.Renamed {μ : Type} (f : Nat → Nat) (s s' : Store μ) : Prop where
  records : s'.records = s.records.map (Record.rename f)
  index : Reindexed f s.index s'.index
  liveCount : s'.liveCount = s.liveCount

theorem Store.renamed_empty {μ : Type} (f : Nat → Nat) :
    (Store.empty : Store μ).Renamed f Store.empty where
  records := by simp [Store.empty, Arena.empty, Arena.map]
  index := ⟨fun _ => by simp [Store.empty], fun _ _ h => by simp [Store.empty] at h⟩
  liveCount := rfl

def Store.Yielding {μ : Type} (f : Nat → Nat) (p q : Option (Record μ) × Store μ) : Prop :=
  q.1 = p.1.map (Record.rename f) ∧ p.2.Renamed f q.2

theorem displace_rename {μ : Type} (f : Nat → Nat) (a : Arena (Record μ)) (o : Option Slot) :
    Store.displace (a.map (Record.rename f)) o =
      ((Store.displace a o).1.map (Record.rename f), (Store.displace a o).2.map (Record.rename f)) := by
  cases o with
  | none => rfl
  | some i => exact a.remove_map _ i

namespace Store.Renamed
variable {μ : Type} {f : Nat → Nat} {s s' : Store μ} (h : s.Renamed f s')
include h

theorem find? (id : Nat) : s'.find? (f id) = s.find? id := by
  rw [Store.find?, h.index.read, Store.find?]

theorem findGhost? (id : Nat) : s'.findGhost? (f id) = s.findGhost? id := by
  rw [Store.findGhost?, h.index.read, Store.findGhost?]

theorem entry (id : Nat) : s'.entry (f id) = s.entry id := by
  rw [Store.entry, Store.entry, Std.HashMap.getD_eq_getD_getElem?, Std.HashMap.getD_eq_getD_getElem?,
    h.index.read]

theorem get? (i : Slot) : s'.get? i = (s.get? i).map (Record.rename f) := by
  rw [Store.get?, Store.get?, h.records, Arena.get?_map]

theorem caches_iff (id : Nat) : s'.caches id = true ↔ ∃ k, f k = id ∧ s.caches k = true := by
  constructor
  · intro cached
    obtain ⟨i, hi⟩ := Option.isSome_iff_exists.mp cached
    obtain ⟨e, he, -⟩ := Option.bind_eq_some_iff.mp hi
    obtain ⟨k, rfl⟩ := h.index.named id e he
    refine ⟨k, rfl, ?_⟩
    rw [Store.caches, ← h.find? k]
    exact cached
  · rintro ⟨k, rfl, cached⟩
    rw [Store.caches, h.find? k]
    exact cached

theorem relinked (records : Arena (Record μ)) :
    Store.Renamed f { s with records } { s' with records := records.map (Record.rename f) } :=
  ⟨rfl, h.index, h.liveCount⟩

theorem modify (i : Slot) {g g' : Record μ → Record μ} (same : ∀ r, g' (r.rename f) = (g r).rename f) :
    (s.modify i g).Renamed f (s'.modify i g') where
  records := by
    show s'.records.modify i g' = _
    rw [h.records]
    exact s.records.modify_map i same
  index := h.index
  liveCount := h.liveCount

theorem touch (i : Slot) (req : Request) (now : Int) (g : μ → μ) :
    (s.modify i fun r => { r.touch req now with tag := g r.tag }).Renamed f
      (s'.modify i fun r => { r.touch (req.rename f) now with tag := g r.tag }) :=
  h.modify i fun _ => rfl

variable (inj : Function.Injective f)
include inj

theorem insert (req : Request) (now : Int) (tag : μ) :
    Alike (Agree (Renamed f)) (s.insert req now tag) (s'.insert (req.rename f) now tag) := by
  unfold Store.insert
  dsimp only
  rw [Request.rename_id, h.entry]
  split
  · exact .error rfl
  · have record : Record.ofRequest (req.rename f) now tag =
        Record.rename f <$> Record.ofRequest req now tag := by
      unfold Record.ofRequest
      rw [map_bind]
      rfl
    rw [record]
    refine .bind_map _ fun r => ?_
    rw [h.records, Arena.insert_map, h.liveCount]
    exact .pure ⟨rfl, rfl, h.index.insert inj req.id _, rfl⟩

theorem delete (i : Slot) : Alike (Yielding f) (s.delete i) (s'.delete i) := by
  have vacate : s'.vacate = s.vacate := by
    funext e ghost i
    rw [Store.vacate, Store.vacate, h.liveCount]
  unfold Store.delete
  rw [h.records, Arena.remove_map, vacate]
  cases s.records.remove i with
  | mk gone records =>
    cases gone with
    | none => exact .pure ⟨rfl, rfl, h.index, h.liveCount⟩
    | some r =>
      dsimp only [Option.map_some]
      rw [Record.rename_ghost, Record.rename_id, h.index.read]
      cases s.index[r.id]? with
      | none => exact .pure ⟨rfl, rfl, h.index, h.liveCount⟩
      | some e =>
        refine .bind_same _ fun left => .pure ⟨rfl, rfl, ?_, rfl⟩
        dsimp only
        split
        · exact h.index.erase inj r.id
        · exact h.index.insert inj r.id left.1

theorem demote (i : Slot) : Alike (Yielding f) (s.demote i) (s'.demote i) := by
  unfold Store.demote
  rw [h.get?]
  cases s.get? i with
  | none => exact .pure ⟨rfl, h⟩
  | some r =>
    dsimp only [Option.map_some]
    rw [Record.rename_ghost]
    split
    · exact .pure ⟨rfl, h⟩
    · have marked : s'.records.modify i (fun r => { r with ghost := true }) =
          (s.records.modify i fun r => { r with ghost := true }).map (Record.rename f) := by
        rw [h.records]
        exact s.records.modify_map i fun _ => rfl
      rw [marked, Record.rename_id, h.entry, displace_rename, h.liveCount]
      exact .bind_same _ fun n => .pure ⟨rfl, rfl, h.index.insert inj r.id _, rfl⟩

theorem forkGhost (i : Slot) : (s'.forkGhost i).1 = (s.forkGhost i).1 ∧
    (s.forkGhost i).2.Renamed f (s'.forkGhost i).2 := by
  unfold Store.forkGhost
  rw [h.get?]
  cases s.get? i with
  | none => exact ⟨rfl, h⟩
  | some r =>
    dsimp only [Option.map_some]
    rw [Record.rename_ghost]
    split
    · exact ⟨rfl, h⟩
    · have copied : s'.records.insert { r.rename f with ghost := true, links := .detached } =
          ((s.records.insert { r with ghost := true, links := .detached }).1,
            (s.records.insert { r with ghost := true, links := .detached }).2.map (Record.rename f)) := by
        rw [h.records]
        exact s.records.insert_map (Record.rename f) { r with ghost := true, links := .detached }
      rw [copied, Record.rename_id, h.entry, displace_rename]
      exact ⟨rfl, rfl, h.index.insert inj r.id _, h.liveCount⟩

end Store.Renamed
end CacheReplay
