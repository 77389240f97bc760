import CacheReplay.Proofs.GLCache.Merge
import CacheReplay.Proofs.Store.Catalogue

set_option autoImplicit false

namespace CacheReplay.GLCache

variable {t : Tolerance}

def movedTo (target : Slot) (r : Record ObjectTag) : Record ObjectTag :=
  { r with tag := ⟨target, (r.tag.freq + 1) / 2, false, false⟩ }

/-- The objects whose scores reach a cutoff; an object without a score has the lowest one. -/
def reaching (cutoff : Float) (scores : List Float) (objects : List Slot) : List Slot :=
  (objects.zipIdx.filter fun e => cutoff ≤ scores.getD e.2 lowest).map (·.1)

theorem reaching_cons (cutoff : Float) (scores : List Float) (i : Slot) (rest : List Slot) :
    reaching cutoff scores (i :: rest) =
      (if cutoff ≤ scores.head?.getD lowest then [i] else []) ++ reaching cutoff scores.tail rest := by
  have later : ∀ n, scores.getD (n + 1) lowest = scores.tail.getD n lowest := by
    intro n
    cases scores with
    | nil => simp
    | cons x xs => simp
  have first : scores.getD 0 lowest = scores.head?.getD lowest := by
    cases scores <;> rfl
  have shifted : reaching cutoff scores.tail rest =
      ((rest.zipIdx 1).filter fun e => cutoff ≤ scores.getD e.2 lowest).map (·.1) := by
    rw [reaching, List.zipIdx_succ, List.filter_map, List.map_map]
    simp only [Function.comp_def, later]
  rw [shifted, reaching, List.zipIdx_cons, List.filter_cons, first]
  by_cases reaches : cutoff ≤ scores.head?.getD lowest
  · simp [reaches]
  · simp [reaches]

section fates
variable {target : Slot} {haunts : Record ObjectTag → Bool} {kept objects gs : List Slot}
  {s s' s'' : Store ObjectTag}

/-- What a merge makes of the dossier of an object that was in cell `i`. -/
structure Fate (target : Slot) (kept haunts : Prop) (i : Slot) (r : Record ObjectTag)
    (before after : Dossier ObjectTag) : Prop where
  moved : kept → after.live = some (i, movedTo target r)
  evicted : ¬ kept → after.live = none
  copied : kept → haunts → ∃ j, after.ghost = some (j, r.shade)
  demoted : ¬ kept → haunts → after.ghost = some (i, { r with ghost := true })
  spared : ¬ haunts → after.ghost = before.ghost

/-- Some objects have left these ghosts, one for each that haunts and in their order. -/
def Haunted (haunts : Record ObjectTag → Bool) (objects gs : List Slot) (s s' : Store ObjectTag) : Prop :=
  gs.map some = ((objects.filterMap s.live?).filter haunts).map fun r => (s'.catalogue r.id).ghost.map (·.1)

/-- Some objects were sifted, with these ghosts left; no other object noticed. -/
structure Sifted (target : Slot) (haunts : Record ObjectTag → Bool) (kept objects gs : List Slot)
    (s s' : Store ObjectTag) : Prop where
  fate : ∀ i ∈ objects, ∀ r, s.live? i = some r →
    Fate target (i ∈ kept) (haunts r) i r (s.catalogue r.id) (s'.catalogue r.id)
  others : ∀ id, (∀ i ∈ objects, ∀ r, s.live? i = some r → r.id ≠ id) →
    s'.catalogue id = s.catalogue id
  ghosts : Haunted haunts objects gs s s'

theorem live?_of_catalogue {i : Slot} {r : Record ObjectTag} (hs : s.Consistent) (hs' : s'.Consistent)
    (same : s'.catalogue r.id = s.catalogue r.id) (hr : s.live? i = some r) : s'.live? i = some r := by
  rw [Store.live?_eq_some_iff] at hr ⊢
  have filed := (hs.catalogued.files false r.id i r).mpr ⟨hr.1, rfl, hr.2⟩
  rw [← same] at filed
  obtain ⟨get, -, live⟩ := (hs'.catalogued.files false r.id i r).mp filed
  exact ⟨get, live⟩

theorem Sifted.apart (h : Sifted target haunts kept objects gs s s') (hs : s.Consistent) {i : Slot}
    {r : Record ObjectTag} (hr : s.live? i = some r) (out : i ∉ objects) :
    s'.catalogue r.id = s.catalogue r.id := by
  refine h.others r.id fun j hj u hu same => out ?_
  obtain ⟨hr, live⟩ := (s.live?_eq_some_iff i r).mp hr
  obtain ⟨hu, live'⟩ := (s.live?_eq_some_iff j u).mp hu
  rw [hs.live_unique hr hu live live' same.symm]
  exact hj

theorem Haunted.congr {s₁ : Store ObjectTag} (h : Haunted haunts objects gs s s')
    (live : ∀ i ∈ objects, s₁.live? i = s.live? i)
    (same : ∀ i ∈ objects, ∀ r, s.live? i = some r → s''.catalogue r.id = s'.catalogue r.id) :
    Haunted haunts objects gs s₁ s'' := by
  unfold Haunted at h ⊢
  rw [List.filterMap_congr live, h]
  refine List.map_congr_left fun r hr => ?_
  obtain ⟨i, hi, found⟩ := List.mem_filterMap.mp (List.mem_filter.mp hr).1
  rw [same i hi r found]

theorem Haunted.length_eq (h : Haunted haunts objects gs s s') :
    gs.length = (objects.filterMap s.live?).countP haunts := by
  have lengths := congrArg List.length h
  rw [List.length_map, List.length_map] at lengths
  rw [lengths, List.countP_eq_length_filter]

theorem Haunted.append {more hs : List Slot} (h : Haunted haunts objects gs s s')
    (k : Haunted haunts more hs s s') : Haunted haunts (objects ++ more) (gs ++ hs) s s' := by
  unfold Haunted at h k ⊢
  rw [List.map_append, h, k, List.filterMap_append, List.filter_append, List.map_append]

theorem Sifted.still (h : Sifted target haunts kept objects gs s s') (consistent : s.Consistent)
    (consistent' : s'.Consistent) {i : Slot} (live : ∃ r, s.live? i = some r) (out : i ∉ objects) :
    s'.live? i = s.live? i := by
  obtain ⟨r, hr⟩ := live
  rw [hr]
  exact live?_of_catalogue consistent consistent' (h.apart consistent hr out) hr

theorem Sifted.settled {more hs : List Slot} (k : Sifted target haunts kept more hs s' s'')
    (consistent : s.Consistent) (still : ∀ i ∈ more, s'.live? i = s.live? i) {i : Slot} {r : Record ObjectTag}
    (hr : s.live? i = some r) (out : i ∉ more) : s''.catalogue r.id = s'.catalogue r.id := by
  refine k.others r.id fun j hj u hu same => out ?_
  rw [still j hj] at hu
  obtain ⟨hr, live⟩ := (s.live?_eq_some_iff i r).mp hr
  obtain ⟨hu, live'⟩ := (s.live?_eq_some_iff j u).mp hu
  rw [consistent.live_unique hr hu live live' same.symm]
  exact hj

/-- Sifting some objects and then others comes to sifting them all. -/
theorem Sifted.append {more hs : List Slot} (h : Sifted target haunts kept objects gs s s')
    (k : Sifted target haunts kept more hs s' s'') (consistent : s.Consistent) (consistent' : s'.Consistent)
    (live : ∀ i ∈ more, ∃ r, s.live? i = some r) (disjoint : objects.Disjoint more) :
    Sifted target haunts kept (objects ++ more) (gs ++ hs) s s'' := by
  have still : ∀ i ∈ more, s'.live? i = s.live? i := fun i hi =>
    h.still consistent consistent' (live i hi) fun first => disjoint first hi
  have later : ∀ i ∈ objects, ∀ r, s.live? i = some r → s''.catalogue r.id = s'.catalogue r.id :=
    fun i hi r hr => k.settled consistent still hr (disjoint hi)
  refine ⟨fun i hi r hr => ?_, fun id away => ?_, ?_⟩
  · rcases List.mem_append.mp hi with first | second
    · rw [later i first r hr]
      exact h.fate i first r hr
    · rw [← h.apart consistent hr fun first => disjoint first second]
      exact k.fate i second r ((still i second).trans hr)
  · rw [k.others id fun i hi r hr => away i (List.mem_append_right objects hi) r ((still i hi).symm.trans hr)]
    exact h.others id fun i hi => away i (List.mem_append_left more hi)
  · have first : Haunted haunts objects gs s s'' := h.ghosts.congr (fun _ _ => rfl) later
    have second : Haunted haunts more hs s s'' :=
      k.ghosts.congr (fun i hi => (still i hi).symm) fun _ _ _ _ => rfl
    exact first.append second

theorem Sifted.exists_live (h : Sifted target haunts kept objects gs s s') (consistent : s.Consistent)
    (consistent' : s'.Consistent) {i : Slot} {u : Record ObjectTag} (hu : s'.live? i = some u) :
    ∃ r, s.live? i = some r ∧ r.id = u.id := by
  obtain ⟨get, live⟩ := (s'.live?_eq_some_iff i u).mp hu
  have filed : (s'.catalogue u.id).live = some (i, u) :=
    (consistent'.catalogued.files false u.id i u).mpr ⟨get, rfl, live⟩
  by_cases sifted : ∃ j ∈ objects, ∃ r, s.live? j = some r ∧ r.id = u.id
  · obtain ⟨j, hj, r, hr, same⟩ := sifted
    have fate := h.fate j hj r hr
    rw [same] at fate
    by_cases mem : j ∈ kept
    · cases filed.symm.trans (fate.moved mem)
      exact ⟨r, hr, same⟩
    · cases filed.symm.trans (fate.evicted mem)
  · rw [h.others u.id fun j hj r hr same => sifted ⟨j, hj, r, hr, same⟩] at filed
    obtain ⟨get, -, live⟩ := (consistent.catalogued.files false u.id i u).mp filed
    exact ⟨u, (s.live?_eq_some_iff i u).mpr ⟨get, live⟩, rfl⟩

theorem Sifted.live?_eq (h : Sifted target haunts kept objects gs s s') (consistent : s.Consistent)
    (consistent' : s'.Consistent) (listed : ∀ i ∈ objects, ∃ r, s.live? i = some r)
    (sub : ∀ i ∈ kept, i ∈ objects) (i : Slot) : s'.live? i =
      if i ∈ kept then (s.live? i).map (movedTo target)
      else if i ∈ objects then none else s.live? i := by
  by_cases hi : i ∈ objects
  · obtain ⟨r, hr⟩ := listed i hi
    have fate := h.fate i hi r hr
    by_cases mem : i ∈ kept
    · rw [if_pos mem, hr, Option.map_some]
      obtain ⟨get, -, live⟩ := (consistent'.catalogued.files false r.id i _).mp (fate.moved mem)
      exact (s'.live?_eq_some_iff i _).mpr ⟨get, live⟩
    · rw [if_neg mem, if_pos hi, Option.eq_none_iff_forall_ne_some]
      intro u hu
      obtain ⟨v, hv, same⟩ := h.exists_live consistent consistent' hu
      cases hr.symm.trans hv
      obtain ⟨get, live⟩ := (s'.live?_eq_some_iff i u).mp hu
      have filed := (consistent'.catalogued.files false r.id i u).mpr ⟨get, same.symm, live⟩
      cases filed.symm.trans (fate.evicted mem)
  · rw [if_neg fun mem => hi (sub i mem), if_neg hi]
    cases hr : s.live? i with
    | some r => exact (h.still consistent consistent' ⟨r, hr⟩ hi).trans hr
    | none =>
      rw [Option.eq_none_iff_forall_ne_some]
      intro u hu
      obtain ⟨v, hv, -⟩ := h.exists_live consistent consistent' hu
      cases hr.symm.trans hv

theorem Sifted.nil (s : Store ObjectTag) : Sifted target haunts kept [] [] s s where
  fate _ hi := absurd hi List.not_mem_nil
  others _ _ := rfl
  ghosts := rfl

section one
variable {i : Slot} {r : Record ObjectTag} {v : Option (Slot × Record ObjectTag)}

/-- An object that leaves no ghost has a new live entry, or none. -/
theorem Sifted.of_quiet (hr : s.live? i = some r) (quiet : haunts r = false)
    (e : s'.catalogue = s.catalogue.amend r.id false v)
    (hv : v = if i ∈ kept then some (i, movedTo target r) else none) :
    Sifted target haunts kept [i] [] s s' := by
  have read := Catalogue.of_amend s.catalogue r.id false v
  rw [← e] at read
  have live : (s'.catalogue r.id).live = v := (read r.id false).trans (if_pos ⟨rfl, rfl⟩)
  constructor
  · intro j hj u hu
    rw [List.mem_singleton] at hj
    rw [hj, hr] at hu
    cases hu
    rw [hj]
    refine ⟨fun mem => ?_, fun out => ?_, fun _ haunting => ?_, fun _ haunting => ?_, fun _ => ?_⟩
    · rw [live, hv, if_pos mem]
    · rw [live, hv, if_neg out]
    · exact absurd haunting (by simp [quiet])
    · exact absurd haunting (by simp [quiet])
    · exact (read r.id true).trans (if_neg fun same => Bool.noConfusion same.2)
  · intro id away
    have other := away i (List.mem_singleton_self i) r hr
    exact Dossier.ext_of fun kind => (read id kind).trans (if_neg fun same => other same.1.symm)
  · simp [Haunted, hr, quiet]

theorem Sifted.of_haunting (hr : s.live? i = some r) (haunting : haunts r = true) {j : Slot}
    {g : Record ObjectTag} (read : ∀ id kind, (s'.catalogue id).of kind =
      if id = r.id then if kind then some (j, g) else v else (s.catalogue id).of kind)
    (hv : v = if i ∈ kept then some (i, movedTo target r) else none)
    (hg : (j, g) = if i ∈ kept then (j, r.shade) else (i, { r with ghost := true })) :
    Sifted target haunts kept [i] [j] s s' := by
  have live : (s'.catalogue r.id).live = v := (read r.id false).trans (if_pos rfl)
  have ghost : (s'.catalogue r.id).ghost = some (j, g) := (read r.id true).trans (if_pos rfl)
  constructor
  · intro k hk u hu
    rw [List.mem_singleton] at hk
    rw [hk, hr] at hu
    cases hu
    rw [hk]
    refine ⟨fun mem => ?_, fun out => ?_, fun mem _ => ⟨j, ?_⟩, fun out _ => ?_, fun quiet => ?_⟩
    · rw [live, hv, if_pos mem]
    · rw [live, hv, if_neg out]
    · rw [ghost, hg, if_pos mem]
    · rw [ghost, hg, if_neg out]
    · exact absurd haunting quiet
  · intro id away
    have other := away i (List.mem_singleton_self i) r hr
    exact Dossier.ext_of fun kind => (read id kind).trans (if_neg (Ne.symm other))
  · simp [Haunted, hr, haunting, ghost]

variable (h : s.Consistent) (hr : s.live? i = some r)
include h hr

theorem holds_of_live : s.catalogue.Holds i r :=
  (h.catalogued.files.holds_iff i r).mpr ((s.live?_eq_some_iff i r).mp hr).1

theorem Sifted.of_without (out : i ∉ kept) (quiet : haunts r = false) :
    Sifted target haunts kept [i] [] s (s.without i) := by
  have e := (h.catalogued.without (holds_of_live h hr)).eq_catalogue
  rw [((s.live?_eq_some_iff i r).mp hr).2] at e
  exact .of_quiet hr quiet e.symm (if_neg out).symm

theorem Sifted.of_demoted (out : i ∉ kept) (haunting : haunts r = true) :
    Sifted target haunts kept [i] [i] s (s.demoted i) := by
  have live := ((s.live?_eq_some_iff i r).mp hr).2
  have e := (h.catalogued.demoted (holds_of_live h hr) live).2.eq_catalogue
  refine .of_haunting hr haunting (fun id kind => ?_) (if_neg out).symm (if_neg out).symm
  rw [← e, Catalogue.of_amend, Catalogue.of_amend]
  cases kind <;> simp

theorem Sifted.of_move (mem : i ∈ kept) (quiet : haunts r = false) {f : Record ObjectTag → Record ObjectTag}
    (hf : f r = movedTo target r) : Sifted target haunts kept [i] [] s (s.modify i f) := by
  have e := (h.catalogued.modify (holds_of_live h hr) (f := f) (by rw [hf]; exact ⟨rfl, rfl⟩)).eq_catalogue
  rw [((s.live?_eq_some_iff i r).mp hr).2, hf] at e
  exact .of_quiet hr quiet e.symm (if_pos mem).symm

theorem Sifted.of_copy (mem : i ∈ kept) (haunting : haunts r = true)
    {f : Record ObjectTag → Record ObjectTag} (hf : f r = movedTo target r) {j : Slot}
    (reply : (s.forkGhost i).1 = some j) :
    Sifted target haunts kept [i] [j] s ((s.forkGhost i).2.modify i f) := by
  have live := ((s.live?_eq_some_iff i r).mp hr).2
  obtain ⟨k, reply', -, forked⟩ := h.catalogued.forkGhost (holds_of_live h hr) live
  cases reply.symm.trans reply'
  have still : (s.catalogue.amend r.id true (some (j, r.shade))).Holds i r := by
    unfold Catalogue.Holds
    rw [live, Catalogue.of_amend, if_neg fun same => Bool.noConfusion same.2, ← live]
    exact holds_of_live h hr
  have e := (forked.modify still (f := f) (by rw [hf]; exact ⟨rfl, rfl⟩)).eq_catalogue
  rw [live, hf] at e
  refine .of_haunting hr haunting (fun id kind => ?_) (if_pos mem).symm (if_pos mem).symm
  rw [← e, Catalogue.of_amend, Catalogue.of_amend]
  cases kind <;> simp

end one
end fates

namespace Merging

def keeps (g : Merging) : Bool :=
  g.kept.size < g.contents.table.segmentSize && g.cutoff ≤ g.scores.head?.getD lowest

/-- What will have been kept once some objects were sifted. -/
def promise (g : Merging) (objects : List Slot) : List Slot :=
  g.kept.toList ++ (reaching g.cutoff g.scores objects).take (g.contents.table.segmentSize - g.kept.size)

theorem promise_nil (g : Merging) : g.promise [] = g.kept.toList := by
  rw [promise, reaching, List.zipIdx_nil, List.filter_nil, List.map_nil, List.take_nil, List.append_nil]

/-- What sifting some objects counts. What will be kept after others as well was settled before. -/
structure Advances (objects : List Slot) (g g' : Merging) : Prop where
  target : g'.target = g.target
  segmentSize : g'.contents.table.segmentSize = g.contents.table.segmentSize
  promise : ∀ later, g'.promise later = g.promise (objects ++ later)
  count : g'.kept.size + g'.dropped = g.kept.size + g.dropped + objects.length

theorem Advances.refl (g : Merging) : Advances [] g g := ⟨rfl, rfl, fun _ => rfl, rfl⟩

theorem Advances.trans {xs ys : List Slot} {g g' g'' : Merging} (h : Advances xs g g')
    (k : Advances ys g' g'') : Advances (xs ++ ys) g g'' where
  target := k.target.trans h.target
  segmentSize := k.segmentSize.trans h.segmentSize
  promise later := by
    rw [k.promise, h.promise, List.append_assoc]
  count := by
    have first := h.count
    have second := k.count
    rw [List.length_append]
    omega

section
variable {g g' : Merging} {i : Slot} {later : List Slot}

theorem promise_cons (g : Merging) (i : Slot) (later : List Slot) :
    g.promise (i :: later) = g.kept.toList ++ (if g.keeps then [i] else []) ++
      (reaching g.cutoff g.scores.tail later).take
        (g.contents.table.segmentSize - (g.kept.size + if g.keeps then 1 else 0)) := by
  unfold promise keeps
  rw [reaching_cons]
  by_cases room : g.kept.size < g.contents.table.segmentSize
  · by_cases reaches : g.cutoff ≤ g.scores.head?.getD lowest
    · have more : g.contents.table.segmentSize - g.kept.size =
          g.contents.table.segmentSize - (g.kept.size + 1) + 1 := by omega
      simp [room, reaches, more]
    · simp [reaches]
  · have full : g.contents.table.segmentSize - g.kept.size = 0 := by omega
    simp [room, full]

theorem mem_promise_iff (out : i ∉ g.kept.toList) (later' : i ∉ later) :
    i ∈ g.promise (i :: later) ↔ g.keeps = true := by
  have missed : i ∉ (reaching g.cutoff g.scores.tail later).take
      (g.contents.table.segmentSize - (g.kept.size + if g.keeps then 1 else 0)) := by
    intro found
    obtain ⟨e, he, same⟩ := List.mem_map.mp (List.mem_of_mem_take found)
    have mem := List.fst_mem_of_mem_zipIdx (List.mem_filter.mp he).1
    exact later' (same ▸ mem)
  rw [promise_cons, List.mem_append, List.mem_append, or_iff_left missed, or_iff_right out]
  cases g.keeps <;> simp

theorem Advances.of_next (target : g'.target = g.target) (cutoff : g'.cutoff = g.cutoff)
    (scores : g'.scores = g.scores.tail)
    (segmentSize : g'.contents.table.segmentSize = g.contents.table.segmentSize)
    (kept : g'.kept.toList = g.kept.toList ++ if g.keeps then [i] else [])
    (dropped : g'.dropped = g.dropped + if g.keeps then 0 else 1) : Advances [i] g g' := by
  have size : g'.kept.size = g.kept.size + if g.keeps then 1 else 0 := by
    have length := congrArg List.length kept
    rw [List.length_append, Array.length_toList, Array.length_toList] at length
    rw [length]
    cases g.keeps <;> rfl
  refine ⟨target, segmentSize, fun later => ?_, ?_⟩
  · change _ = g.promise (i :: later)
    rw [promise_cons, Merging.promise, cutoff, scores, segmentSize, kept, size]
  · rw [size, dropped]
    cases g.keeps <;> simp +arith

theorem Advances.of_kept (keep : g.keeps = true) (store : Store ObjectTag) (bytes : Nat) :
    Advances [i] g { g with
      contents := { g.contents with store := store }
      scores := g.scores.tail
      kept := g.kept.push i
      keptBytes := bytes } := by
  refine .of_next rfl rfl rfl rfl ?_ ?_
  · rw [if_pos keep]
    exact Array.toList_push
  · rw [if_pos keep]
    rfl

theorem Advances.of_dropped (drop : ¬ g.keeps = true) (store : Store ObjectTag) (account : Account) :
    Advances [i] g { g with
      contents := { g.contents with store := store, account := account }
      scores := g.scores.tail
      dropped := g.dropped + 1 } := by
  refine .of_next rfl rfl rfl rfl ?_ ?_
  · rw [if_neg drop, List.append_nil]
  · rw [if_neg drop]

end

section
variable {g : Merging} {lists ghosts : Slot → List Slot} {p i : Slot} {rest gs : List Slot}
  {haunts : Record ObjectTag → Bool}

theorem settles_move_fields (g : Merging) (i : Slot) (r : Record ObjectTag) :
    Settles t (g.move i r) fun g' => ∃ bytes, g' = { g with
      contents := { g.contents with
        store := g.contents.store.modify i fun u => { u with tag := (movedTo g.target r).tag } }
      kept := g.kept.push i
      keptBytes := bytes } := by
  unfold move
  refine settles_bind (settles_addCount _ _) fun doubled more => ?_
  subst more
  refine settles_bind (g.contents.account.settles_footprint r.size) fun bytes _ => ?_
  exact settles_bind (settles_addWord _ _) fun keptBytes _ => settles_pure ⟨keptBytes, rfl⟩

/-- Each of the four cases has the fate that the cutoff, the room and the sampling decide. -/
theorem Sifting.settles_sift_fate
    (h : g.Sifting (Function.update lists p (i :: rest)) (Function.update ghosts p gs))
    (apart : p ≠ g.target) {sampled : Bool}
    (haunting : ∀ r, g.contents.store.live? i = some r → haunts r = (sampled && !r.tag.seen))
    {later : List Slot} (out : i ∉ later) :
    Settles t (g.sift sampled i) fun q => Advances [i] g q.2 ∧ q.2.ghosted = g.ghosted ∧
      Sifted g.target haunts (g.promise (i :: later)) [i] q.1.toList g.contents.store
        q.2.contents.store := by
  obtain ⟨r, hr, home, -⟩ := (h.swap apart).exists_next
  have consistent := h.ledger.consistent
  have away := h.not_mem_kept hr (by rw [home]; exact apart)
  have decides : i ∈ g.promise (i :: later) ↔ g.keeps = true := mem_promise_iff away out
  have haunting := haunting r hr
  unfold sift
  dsimp only
  rw [((g.contents.store.live?_eq_some_iff i r).mp hr).1]
  dsimp only
  rw [← haunting]
  change Settles t (if g.keeps = true then _ else _) _
  split
  · rename_i keep
    have mem := decides.mpr keep
    cases leaves : haunts r with
    | false =>
      rw [if_neg Bool.false_ne_true]
      refine settles_bind (settles_move_fields _ i r) fun g' moved => ?_
      obtain ⟨bytes, rfl⟩ := moved
      exact settles_pure ⟨.of_kept keep _ _, rfl, .of_move consistent hr mem leaves rfl⟩
    | true =>
      rw [if_pos rfl]
      obtain ⟨j, reply, -⟩ := h.fork hr home g.scores.tail
      refine settles_bind (settles_move_fields _ i r) fun g' moved => ?_
      obtain ⟨bytes, rfl⟩ := moved
      refine settles_pure ⟨.of_kept keep _ _, rfl, ?_⟩
      rw [reply]
      exact .of_copy consistent hr mem leaves
        (f := fun u => { u with tag := (movedTo g.target r).tag }) rfl reply
  · rename_i drop
    have evicted := fun mem => drop (decides.mp mem)
    obtain ⟨get, live⟩ := (g.contents.store.live?_eq_some_iff i r).mp hr
    rw [Contents.dropObject, h.ledger.balanced.release_eq (Store.liveSize?_of_live get live), ok_bind]
    cases leaves : haunts r with
    | false =>
      rw [if_neg Bool.false_ne_true, consistent.delete_eq, ok_bind]
      exact settles_pure ⟨.of_dropped drop _ _, rfl, .of_without consistent hr evicted leaves⟩
    | true =>
      rw [if_pos rfl, consistent.demote_eq get live, ok_bind]
      exact settles_pure ⟨.of_dropped drop _ _, rfl, .of_demoted consistent hr evicted leaves⟩

theorem Sifting.settles_siftAll_fates {sampled : Bool} {objects : List Slot}
    (h : g.Sifting (Function.update lists p objects) (Function.update ghosts p gs))
    (apart : p ≠ g.target)
    (haunting : ∀ i ∈ objects, ∀ r, g.contents.store.live? i = some r →
      haunts r = (sampled && !r.tag.seen))
    {later : List Slot} (nodup : (objects ++ later).Nodup) :
    Settles t (siftAll sampled objects g) fun q => Advances objects g q.2 ∧ q.2.ghosted = g.ghosted ∧
      Sifted g.target haunts (g.promise (objects ++ later)) objects q.1 g.contents.store
        q.2.contents.store := by
  induction objects generalizing g gs with
  | nil => exact settles_pure ⟨.refl g, rfl, .nil _⟩
  | cons i rest ih =>
    have live : ∀ j ∈ rest, ∃ r, g.contents.store.live? j = some r := by
      intro j hj
      obtain ⟨r, hr, -⟩ := ((h.swap apart).live p j).mp (by
        rw [Function.update_self]
        exact List.mem_cons_of_mem i hj)
      exact ⟨r, hr⟩
    rw [List.cons_append, List.nodup_cons] at nodup
    have away : i ∉ rest := fun hi => nodup.1 (List.mem_append_left later hi)
    unfold siftAll
    refine settles_bind ((h.settles_sift_fate apart (haunting i List.mem_cons_self) nodup.1).and
      (h.settles_sift apart sampled)) fun q first => ?_
    obtain ⟨ghost, g'⟩ := q
    obtain ⟨⟨advances, ghosted, sifted⟩, follows, sifting, -, other, -⟩ := first
    dsimp only at advances ghosted sifted follows sifting other ⊢
    refine settles_bind (ih sifting (by rw [follows.target]; exact apart) (fun j hj r hr => ?_)
      nodup.2) fun q later => ?_
    · rw [other j fun e => away (e ▸ hj)] at hr
      exact haunting j (List.mem_cons_of_mem i hj) r hr
    · obtain ⟨left, g''⟩ := q
      obtain ⟨advances', ghosted', sifted'⟩ := later
      rw [advances.target, advances.promise] at sifted'
      refine settles_pure ⟨advances.trans advances', ghosted'.trans ghosted, ?_⟩
      exact sifted.append sifted' h.ledger.consistent sifting.ledger.consistent live
        (List.singleton_disjoint.mpr away)

end
end Merging
end CacheReplay.GLCache
