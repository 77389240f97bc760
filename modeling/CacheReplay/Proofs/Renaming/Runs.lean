import CacheReplay.Proofs.Queue.Refinement
import CacheReplay.Proofs.Renaming.Stores
import CacheReplay.Simulation

set_option autoImplicit false

namespace CacheReplay

namespace Operation

def id : Operation → Nat
  | .get req => req.id
  | .check req _ => req.id
  | .remove id => id
  | .evict req => req.id

def rename (f : Nat → Nat) : Operation → Operation
  | .get req => .get (req.rename f)
  | .check req update => .check (req.rename f) update
  | .remove id => .remove (f id)
  | .evict req => .evict (req.rename f)

theorem rename_congr {f g : Nat → Nat} (op : Operation) (same : f op.id = g op.id) :
    op.rename f = op.rename g := by
  cases op with
  | get req => exact congrArg get (req.rename_congr same)
  | check req update => exact congrArg (check · update) (req.rename_congr same)
  | remove id => exact congrArg remove same
  | evict req => exact congrArg evict (req.rename_congr same)

theorem map_rename_id (ops : List Operation) : ops.map (rename fun id => id) = ops := by
  conv_rhs => rw [← ops.map_id]
  refine List.map_congr_left fun op _ => ?_
  cases op <;> rfl

end Operation

namespace EvictionPolicy
variable {σ : Type} [EvictionPolicy σ]

/-- `rel` relates caches that differ in names only, and every operation keeps it. -/
structure Impartial (f : Nat → Nat) (rel : σ → σ → Prop) : Prop where
  name : ∀ {c d : σ}, rel c d → name d = name c
  account : ∀ {c d : σ}, rel c d → account d = account c
  evictable : ∀ {c d : σ}, rel c d → evictable d = evictable c
  withAccount : ∀ {c d : σ} (a : Account), rel c d → rel (withAccount c a) (withAccount d a)
  check : ∀ {c d : σ} (req : Request) (update : Bool), rel c d →
    Alike (Agree rel) (check c req update) (check d (req.rename f) update)
  insert : ∀ {c d : σ} (req : Request), rel c d →
    Alike (Agree rel) (insert c req) (insert d (req.rename f))
  evict : ∀ {c d : σ} (req : Request), rel c d →
    Alike (Agree rel) (evict c req) (evict d (req.rename f))
  remove : ∀ {c d : σ} (id : Nat), rel c d → Alike (Agree rel) (remove c id) (remove d (f id))
  settle : ∀ {c d : σ} (hit : Bool), rel c d → Alike rel (settle c hit) (settle d hit)

namespace Impartial
variable {f : Nat → Nat} {rel : σ → σ → Prop} (p : Impartial f rel) {c d : σ}
include p

theorem makeRoom (req : Request) (tries : Nat) (h : rel c d) :
    Alike (Agree rel) (makeRoom req tries c) (makeRoom (req.rename f) tries d) := by
  induction tries generalizing c d with
  | zero =>
    unfold EvictionPolicy.makeRoom
    rw [p.account h]
    refine .bind_same _ fun needs => ?_
    split
    · exact .pure ⟨rfl, h⟩
    · exact .pure ⟨rfl, h⟩
  | succ tries ih =>
    unfold EvictionPolicy.makeRoom
    rw [p.account h]
    refine .bind_same _ fun needs => ?_
    split
    · refine (p.evict req h).bind ?_
      rintro ⟨_, c⟩ ⟨evicted, d⟩ ⟨rfl, hd⟩
      dsimp only at hd ⊢
      split
      · exact ih hd
      · exact .pure ⟨rfl, hd⟩
    · exact .pure ⟨rfl, h⟩

theorem takeIn (req : Request) (h : rel c d) :
    Alike rel (takeIn c req) (takeIn d (req.rename f)) := by
  unfold EvictionPolicy.takeIn
  rw [p.account h, p.evictable h]
  refine .bind_same _ fun fits => ?_
  split
  · refine (p.makeRoom req _ h).bind ?_
    rintro ⟨_, c⟩ ⟨made, d⟩ ⟨rfl, hd⟩
    dsimp only at hd ⊢
    split
    · exact (p.insert req hd).bind fun _ _ inserted => .pure inserted.2
    · exact .pure hd
  · exact .pure h

theorem respond (req : Request) (h : rel c d) :
    Alike (Agree rel) (respond c req) (respond d (req.rename f)) := by
  refine (p.check req true h).bind ?_
  rintro ⟨_, c⟩ ⟨outcome, d⟩ ⟨rfl, hd⟩
  have missed : Alike (Agree rel) (do
      let s ← EvictionPolicy.takeIn c req
      pure (false, s)) (do
      let s ← EvictionPolicy.takeIn d (req.rename f)
      pure (false, s)) :=
    (p.takeIn req hd).bind fun _ _ taken => .pure ⟨rfl, taken⟩
  cases outcome with
  | hit => exact .pure ⟨rfl, hd⟩
  | miss => exact missed
  | expired => exact missed

theorem serve (req : Request) (h : rel c d) :
    Alike (Agree rel) (serve c req) (serve d (req.rename f)) := by
  unfold EvictionPolicy.serve
  rw [p.account h]
  refine .bind_same _ fun begun => ?_
  refine (p.respond req (p.withAccount begun h)).bind ?_
  rintro ⟨_, c⟩ ⟨hit, d⟩ ⟨rfl, hd⟩
  exact (p.settle hit hd).bind fun _ _ settled => .pure ⟨rfl, settled⟩

theorem reply (op : Operation) (h : rel c d) :
    Alike (Agree rel) (reply c op) (reply d (op.rename f)) := by
  cases op with
  | get req => exact p.serve req h
  | check req update =>
    refine (p.check req update h).bind ?_
    rintro ⟨_, c⟩ ⟨outcome, d⟩ ⟨rfl, hd⟩
    exact .pure ⟨rfl, hd⟩
  | remove id => exact p.remove id h
  | evict req => exact p.evict req h

/-- A run over renamed objects gets the same answers and ends in a renamed cache. -/
theorem replies (ops : List Operation) (h : rel c d) :
    Alike (Agree rel) (replies c ops) (replies d (ops.map (Operation.rename f))) := by
  induction ops generalizing c d with
  | nil => exact .pure ⟨rfl, h⟩
  | cons op ops ih =>
    refine (p.reply op h).bind ?_
    rintro ⟨_, c⟩ ⟨answer, d⟩ ⟨rfl, hd⟩
    refine (ih hd).bind ?_
    rintro ⟨_, c⟩ ⟨answers, d⟩ ⟨rfl, hd⟩
    exact .pure ⟨rfl, hd⟩

end Impartial
end EvictionPolicy

theorem Shift.apply_rename (f : Nat → Nat) (shift : Shift) (r : Request) :
    shift.apply (r.rename f) = Request.rename f <$> shift.apply r := by
  unfold Shift.apply
  rw [map_bind]
  refine bind_congr fun time => ?_
  rw [map_bind]
  rfl

namespace Warmup

def rename (f : Nat → Nat) : Warmup → Warmup
  | .trace rs => .trace (rs.map (Request.rename f))
  | w => w

theorem rename_congr {f g : Nat → Nat} (w : Warmup) (same : ∀ r ∈ w.preamble, f r.id = g r.id) :
    w.rename f = w.rename g := by
  cases w with
  | trace rs => exact congrArg trace (List.map_congr_left fun r hr => r.rename_congr (same r hr))
  | _ => rfl

theorem rename_id (w : Warmup) : w.rename (fun id => id) = w := by
  cases w with
  | trace rs => exact congrArg trace (Request.map_rename_id rs)
  | _ => rfl

variable (f : Nat → Nat) (w : Warmup)

theorem preamble_rename : (w.rename f).preamble = w.preamble.map (Request.rename f) := by
  cases w <;> rfl

theorem covers_rename (length position : Nat) (r : Request) :
    (w.rename f).covers length position (r.rename f) = w.covers length position r := by
  cases w <;> rfl

theorem shift_rename (rs : List Request) :
    (w.rename f).shift (rs.map (Request.rename f)) = w.shift rs := by
  have first : ∀ rs : List Request, firstTime? (rs.map (Request.rename f)) = firstTime? rs := by
    intro rs
    cases rs <;> rfl
  rw [shift, shift, preamble_rename, first, first, List.length_map]

end Warmup

namespace EvictionPolicy.Impartial
variable {σ : Type} [EvictionPolicy σ] {f : Nat → Nat} {rel : σ → σ → Prop} (p : Impartial f rel)
  {c d : σ}
include p

theorem preheat (shift : Shift) (rs : List Request) (h : rel c d) :
    Alike rel (preheat shift rs c) (preheat shift (rs.map (Request.rename f)) d) := by
  induction rs generalizing c d with
  | nil => exact .pure h
  | cons r rs ih =>
    rw [List.map_cons, CacheReplay.preheat, CacheReplay.preheat, Shift.apply_rename]
    refine .bind_map _ fun r => ?_
    exact (p.serve r h).bind fun _ _ served => ih served.2

theorem replay (w : Warmup) (shift : Shift) (length position : Nat) (rs : List Request)
    (n : Counters) (h : rel c d) : Alike (fun p q => rel p.1 q.1 ∧ q.2 = p.2)
      (replay w shift length position rs c n)
      (replay (w.rename f) shift length position (rs.map (Request.rename f)) d n) := by
  induction rs generalizing position c d n with
  | nil => exact .pure ⟨h, rfl⟩
  | cons r rs ih =>
    rw [List.map_cons, CacheReplay.replay, CacheReplay.replay, Shift.apply_rename]
    refine .bind_map _ fun r => ?_
    refine (p.serve r h).bind ?_
    rintro ⟨_, c⟩ ⟨hit, d⟩ ⟨rfl, hd⟩
    dsimp only at hd ⊢
    rw [w.covers_rename, p.account hd]
    split
    · exact .bind_same _ fun n => ih (position + 1) n hd
    · exact .bind_same _ fun n => ih (position + 1) n hd

theorem simulate (rs : List Request) (w : Warmup) (h : rel c d) : Alike (Agree rel)
    (simulate rs c w) (simulate (rs.map (Request.rename f)) d (w.rename f)) := by
  unfold CacheReplay.simulate
  rw [w.shift_rename, w.preamble_rename, List.length_map, List.length_map]
  refine (p.preheat _ _ h).bind fun c d hd => ?_
  rw [p.account hd]
  refine (p.replay w _ _ _ rs _ hd).bind ?_
  rintro ⟨c, n⟩ ⟨d, _⟩ ⟨hd, rfl⟩
  dsimp only at hd ⊢
  rw [p.account hd, p.name hd]
  exact .bind_same _ fun expired => .pure ⟨rfl, hd⟩

end EvictionPolicy.Impartial
end CacheReplay
