import CacheReplay.Word
import Mathlib.Data.List.Forall2

set_option autoImplicit false

/-!
# Outcomes of checked steps

A step settles when every result it can answer with satisfies a condition and
every fault it can stop with is tolerated. Arithmetic that leaves its range is
always tolerated; nothing else is unless a statement says so. A step yields when
it has a result at all, and that result satisfies a condition.
-/
namespace CacheReplay

/-- The faults that a statement leaves out. -/
structure Tolerance where
  allows : Fault → Prop
  overflow : allows .overflow

def Tolerance.arithmetic : Tolerance := ⟨(· = .overflow), rfl⟩

/-- A result satisfies `post`; a fault is tolerated. -/
def Settles {α : Type} (t : Tolerance) (x : Checked α) (post : α → Prop) : Prop :=
  match x with
  | .ok a => post a
  | .error f => t.allows f

section
variable {α β : Type} {t : Tolerance} {x : Checked α} {post : α → Prop}

theorem settles_pure {a : α} (h : post a) : Settles t (pure a : Checked α) post := h

theorem Settles.mono {weaker : α → Prop} (h : Settles t x post) (imp : ∀ a, post a → weaker a) :
    Settles t x weaker := by
  cases x with
  | error f => exact h
  | ok a => exact imp a h

theorem settles_bind {mid : α → Prop} {f : α → Checked β} {post : β → Prop}
    (hx : Settles t x mid) (hf : ∀ a, mid a → Settles t (f a) post) :
    Settles t (x >>= f) post := by
  cases x with
  | error f => exact hx
  | ok a => exact hf a hx

theorem settles_ok_bind {a : α} {f : α → Checked β} {post : β → Prop} (h : Settles t (f a) post) :
    Settles t ((.ok a : Checked α) >>= f) post := h

theorem settles_map {f : α → β} {post : β → Prop} (h : Settles t x fun a => post (f a)) :
    Settles t (f <$> x) post := by
  cases x with
  | error f => exact h
  | ok a => exact h

theorem settles_of_map {f : α → β} {post : β → Prop} (h : Settles t (f <$> x) post) :
    Settles t x fun a => post (f a) := by
  cases x with
  | error f => exact h
  | ok a => exact h

theorem Settles.eq_ok (h : Settles t x post) : Settles t x fun a => x = .ok a ∧ post a := by
  cases x with
  | error f => exact h
  | ok a => exact ⟨rfl, h⟩

theorem Settles.and {other : α → Prop} (h : Settles t x post) (k : Settles t x other) :
    Settles t x fun a => post a ∧ other a := by
  cases x with
  | error f => exact h
  | ok a => exact ⟨h, k⟩

end

section
variable {t : Tolerance}

theorem settles_addWord (a b : Nat) : Settles t (addWord a b) fun c => c = a + b ∧ IsWord c := by
  unfold addWord
  split
  · exact ⟨rfl, by assumption⟩
  · exact t.overflow

theorem settles_addCount (a b : Nat) : Settles t (addCount a b) fun c => c = a + b := by
  unfold addCount
  split
  · exact rfl
  · exact t.overflow

theorem settles_subWord (a b : Nat) : Settles t (subWord a b) fun c => a = b + c := by
  unfold subWord
  split
  · show a = b + (a - b)
    omega
  · exact t.overflow

theorem subWord_of_le {a b : Nat} (h : b ≤ a) : subWord a b = .ok (a - b) := by
  simp [subWord, h]

theorem settles_mulWord (a b : Nat) : Settles t (mulWord a b) fun c => c = a * b := by
  unfold mulWord
  split
  · exact rfl
  · exact t.overflow

theorem settles_addTime (a b : Int) : Settles t (addTime a b) fun c => c = a + b := by
  unfold addTime
  split
  · exact rfl
  · exact t.overflow

theorem settles_subTime (a b : Int) : Settles t (subTime a b) fun c => c = a - b := by
  unfold subTime
  split
  · exact rfl
  · exact t.overflow

end

section
variable {α β : Type} {t : Tolerance}

theorem settles_mapM {f : α → Checked β} {good : α → β → Prop} {xs : List α}
    (h : ∀ x ∈ xs, Settles t (f x) (good x)) :
    Settles t (xs.mapM f) fun ys => List.Forall₂ good xs ys := by
  induction xs with
  | nil => exact settles_pure .nil
  | cons x xs ih =>
    rw [List.mapM_cons]
    refine settles_bind (h x List.mem_cons_self) fun y hy => ?_
    refine settles_bind (ih fun z hz => h z (List.mem_cons_of_mem x hz)) fun ys hys => ?_
    exact settles_pure (.cons hy hys)

theorem settles_mapM_true {f : α → Checked β} {xs : List α}
    (h : ∀ x ∈ xs, Settles t (f x) fun _ => True) : Settles t (xs.mapM f) fun _ => True :=
  (settles_mapM h).mono fun _ _ => trivial

theorem settles_foldlM {f : β → α → Checked β} {inv : β → Prop} {xs : List α} {b : β} (hb : inv b)
    (h : ∀ b, inv b → ∀ x ∈ xs, Settles t (f b x) inv) : Settles t (xs.foldlM f b) inv := by
  induction xs generalizing b with
  | nil => exact settles_pure hb
  | cons x xs ih =>
    rw [List.foldlM_cons]
    refine settles_bind (h b hb x List.mem_cons_self) fun c hc => ?_
    exact ih hc fun d hd y hy => h d hd y (List.mem_cons_of_mem x hy)

end
def Tolerance.any : Tolerance := ⟨fun _ => True, trivial⟩

section
variable {α : Type} {t : Tolerance} {x : Checked α} {post other : α → Prop}

theorem settles_any (x : Checked α) : Settles .any x fun _ => True := by
  cases x with
  | error f => trivial
  | ok a => trivial

theorem Settles.also (h : Settles t x post) (k : Settles .any x other) :
    Settles t x fun a => post a ∧ other a := by
  cases x with
  | error f => exact h
  | ok a => exact ⟨h, k⟩

/-- There is a result, and it satisfies `post`. -/
def Yields {α : Type} (x : Checked α) (post : α → Prop) : Prop := ∃ a, x = .ok a ∧ post a

theorem yields_pure {a : α} (h : post a) : Yields (pure a : Checked α) post := ⟨a, rfl, h⟩

theorem yields_bind {β : Type} {f : α → Checked β} {after : β → Prop} (hx : Yields x post)
    (hf : ∀ a, post a → Yields (f a) after) : Yields (x >>= f) after := by
  obtain ⟨a, rfl, h⟩ := hx
  exact hf a h

theorem yields_map {β : Type} {f : α → β} {after : β → Prop} (h : Yields x fun a => after (f a)) :
    Yields (f <$> x) after := by
  obtain ⟨a, rfl, h⟩ := h
  exact ⟨f a, rfl, h⟩

theorem Yields.of_map {β : Type} {f : α → β} {y : Checked β} {after : β → Prop} (e : f <$> x = y)
    (h : Yields y after) : Yields x fun a => after (f a) := by
  subst e
  obtain ⟨b, e, h⟩ := h
  cases x with
  | error fault => cases e
  | ok a =>
    cases e
    exact ⟨a, rfl, h⟩

theorem Yields.mono {weaker : α → Prop} (h : Yields x post) (imp : ∀ a, post a → weaker a) :
    Yields x weaker := by
  obtain ⟨a, e, h⟩ := h
  exact ⟨a, e, imp a h⟩

theorem Yields.settles (h : Yields x post) : Settles t x post := by
  obtain ⟨a, rfl, h⟩ := h
  exact h

/-- Where only an overflow can keep a step from a result, there is one unless it overflows. -/
theorem Settles.yields (h : Settles .arithmetic x post) (inRange : x ≠ .error .overflow) : Yields x post := by
  cases x with
  | error f => exact absurd (congrArg Except.error h) inRange
  | ok a => exact ⟨a, rfl, h⟩

theorem Yields.and (h : Yields x post) (k : Settles t x other) :
    Yields x fun a => post a ∧ other a := by
  obtain ⟨a, rfl, h⟩ := h
  exact ⟨a, rfl, h, k⟩

end

theorem yields_of_toOption {α β : Type} {x : Checked α} {f : α → β} {b : β}
    (e : x.toOption.map f = some b) : Yields x fun a => f a = b := by
  cases x with
  | error fault => cases e
  | ok a => exact ⟨a, rfl, Option.some.inj e⟩

theorem ok_bind {α β : Type} (a : α) (f : α → Checked β) : ((.ok a : Checked α) >>= f) = f a := rfl

theorem addWord_of_isWord {a b : Nat} (word : IsWord (a + b)) : addWord a b = .ok (a + b) :=
  if_pos word

theorem divWord_of_pos {a b : Nat} (pos : 0 < b) : divWord a b = .ok (a / b) := if_neg (Nat.ne_of_gt pos)

theorem modWord_of_pos {a b : Nat} (pos : 0 < b) : modWord a b = .ok (a % b) := if_neg (Nat.ne_of_gt pos)

theorem IsWord.of_le {a b : Nat} (h : IsWord b) (le : a ≤ b) : IsWord a := Nat.lt_of_le_of_lt le h

section
variable {α β : Type}

theorem mapM_eq_ok_iff {ε : Type} {f : α → Except ε β} {xs : List α} {ys : List β} :
    xs.mapM f = .ok ys ↔ List.Forall₂ (fun x y => f x = .ok y) xs ys := by
  induction xs generalizing ys with
  | nil =>
    rw [List.forall₂_nil_left_iff]
    exact ⟨fun e => (Except.ok.inj e).symm, fun e => e ▸ rfl⟩
  | cons x xs ih =>
    rw [List.mapM_cons, bind_eq_ok_iff]
    simp only [bind_eq_ok_iff, ih, List.forall₂_cons_left_iff]
    constructor
    · rintro ⟨y, hy, rest, hrest, e⟩
      cases e
      exact ⟨y, rest, hy, hrest, rfl⟩
    · rintro ⟨y, rest, hy, hrest, rfl⟩
      exact ⟨y, hy, rest, hrest, rfl⟩

theorem yields_mapM {f : α → Checked β} {good : α → β → Prop} {xs : List α}
    (h : ∀ x ∈ xs, Yields (f x) (good x)) : Yields (xs.mapM f) fun ys => List.Forall₂ good xs ys := by
  induction xs with
  | nil => exact yields_pure .nil
  | cons x xs ih =>
    rw [List.mapM_cons]
    apply yields_bind (h x List.mem_cons_self)
    intro y hy
    apply yields_bind (ih fun z hz => h z (List.mem_cons_of_mem x hz))
    intro ys hys
    exact yields_pure (.cons hy hys)

theorem yields_mapM_all {f : α → Checked β} {good : β → Prop} {xs : List α}
    (h : ∀ x ∈ xs, Yields (f x) good) :
    Yields (xs.mapM f) fun ys => ys.length = xs.length ∧ ∀ y ∈ ys, good y := by
  apply (yields_mapM h).mono
  intro ys all
  refine ⟨all.length_eq.symm, ?_⟩
  induction all with
  | nil => exact fun y hy => absurd hy List.not_mem_nil
  | cons first _ ih =>
    intro y hy
    rcases List.mem_cons.mp hy with rfl | later
    · exact first
    · exact ih (fun x hx => h x (List.mem_cons_of_mem _ hx)) y later

theorem yields_mapM_true {f : α → Checked β} {xs : List α} (h : ∀ x ∈ xs, Yields (f x) fun _ => True) :
    Yields (xs.mapM f) fun _ => True :=
  (yields_mapM h).mono fun _ _ => trivial

end
end CacheReplay
