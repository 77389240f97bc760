import CacheReplay.GLCache.Config
import CacheReplay.Proofs.Params
import Mathlib.Data.List.Find
import Mathlib.Data.List.Nodup

set_option autoImplicit false

/-!
# What a configuration is read from

Each of the eighteen keys turns one knob: its value is read, or its default
stands in. Main statement: a parameter text is accepted exactly if it gives
values to some of these keys, once each, and the settings that they leave are in
their ranges; so the order of its items means nothing.
-/
namespace CacheReplay

namespace Params

def get? (p : Params) (key : String) : Option String := (p.pairs.find? fun e => e.1 = key).map (·.2)

def without (p : Params) (taken : List String) : Params := ⟨p.pairs.filter fun e => e.1 ∉ taken⟩

/-- No key is given twice. -/
def Distinct (p : Params) : Prop := (p.pairs.map Prod.fst).Nodup

def read {α : Type} (p : Params) (key : String) (f : String → Except ConfigError α) :
    Except ConfigError (Option α) :=
  (p.get? key).mapM f

theorem distinct_of_parse {text : String} {p : Params} (h : parse text = .ok p) : p.Distinct := by
  obtain ⟨-, distinct, pairs⟩ := (parse_eq_ok_iff text p).1 h
  unfold Distinct
  rw [pairs, List.map_map]
  exact distinct

theorem without_nil (p : Params) : p.without [] = p := by
  cases p
  simp [without]

theorem get?_without {p : Params} {taken : List String} {key : String} (new : key ∉ taken) :
    (p.without taken).get? key = p.get? key := by
  rw [get?, get?, without, List.find?_filter]
  refine congrArg _ (congrArg₂ _ (funext fun e => ?_) rfl)
  by_cases h : e.1 = key
  · simp [h, new]
  · simp [h]

theorem take_eq (p : Params) (key : String) :
    p.take key = (p.get? key, ⟨p.pairs.eraseP fun e => e.1 = key⟩) := by
  rw [take, get?, List.find?_eq_bind_findIdx?_getElem?, List.eraseP_eq_eraseIdx]
  cases p.pairs.findIdx? fun e => e.1 = key <;> rfl

theorem eraseP_eq_filter {pairs : List (String × String)} (distinct : (pairs.map Prod.fst).Nodup) (key : String) :
    pairs.eraseP (fun e => e.1 = key) = pairs.filter fun e => e.1 ≠ key := by
  induction pairs with
  | nil => rfl
  | cons e pairs ih =>
    rw [List.map_cons, List.nodup_cons] at distinct
    by_cases h : e.1 = key
    · rw [List.eraseP_cons_of_pos (by simpa using h), List.filter_cons_of_neg (by simpa using h), eq_comm,
        List.filter_eq_self]
      intro d hd
      have other : d.1 ≠ e.1 := fun same => distinct.1 (same ▸ List.mem_map_of_mem hd)
      simpa [h] using other
    · rw [List.eraseP_cons_of_neg (by simpa using h), List.filter_cons_of_pos (by simpa using h), ih distinct.2]

theorem take_without {p : Params} (distinct : p.Distinct) (taken : List String) (key : String) :
    ((p.without taken).take key).2 = p.without (taken ++ [key]) := by
  have kept : ((p.without taken).pairs.map Prod.fst).Nodup := distinct.sublist (List.filter_sublist.map _)
  rw [take_eq, eraseP_eq_filter kept, without, without, List.filter_filter]
  refine congrArg Params.mk (List.filter_congr fun e _ => ?_)
  simp [not_or, and_comm]

theorem outOf_bind {α β : Type} (x : Taking α) (f : α → Taking β) (p : Params) :
    (x >>= f).outOf p = x.outOf p >>= fun e => (f e.1).outOf e.2 := by
  unfold Taking.outOf
  simp only [ExceptT.run_bind, StateT.run_bind]
  rcases x.run.run p with ⟨_ | _, rest⟩ <;> rfl

theorem outOf_ofExcept {α : Type} (x : Except ConfigError α) (p : Params) :
    (MonadExcept.ofExcept x : Taking α).outOf p = x >>= fun a => pure (a, p) := by
  cases x <;> rfl

theorem outOf_takeAs {α : Type} (key : String) (f : String → Except ConfigError α) (p : Params) :
    (takeAs key f).outOf p = p.read key f >>= fun o => pure (o, (p.take key).2) := by
  have given : (p.take key).1 = p.get? key := congrArg Prod.fst (take_eq p key)
  rw [takeAs, outOf_bind, read, ← given]
  exact outOf_ofExcept ((p.take key).1.mapM f) (p.take key).2

/-- A key that is still there is read, and it is gone for what is taken next. -/
theorem outOf_takeAs_bind {α β : Type} {p rest : Params} {taken : List String} {key : String}
    {f : String → Except ConfigError α} {k : Option α → Taking β} {b : β} (distinct : p.Distinct)
    (new : key ∉ taken) : (takeAs key f >>= k).outOf (p.without taken) = .ok (b, rest) ↔
      ∃ o, p.read key f = .ok o ∧ (k o).outOf (p.without (taken ++ [key])) = .ok (b, rest) := by
  have same : (p.without taken).read key f = p.read key f := by rw [read, read, get?_without new]
  rw [outOf_bind, outOf_takeAs, same, take_without distinct, bind_assoc, bind_eq_ok_iff]
  rfl

def given? (text key : String) : Option String :=
  ((parts text).find? fun part => keyOf part = key).map valueOf

theorem get?_of_parse {text : String} {p : Params} (h : parse text = .ok p) (key : String) :
    p.get? key = given? text key := by
  rw [get?, given?, ((parse_eq_ok_iff text p).1 h).2.2, List.find?_map, Option.map_map]
  rfl

/-- Where each key stands once, it does not matter where. -/
theorem given?_of_perm {text other : String} (same : (parts text).Perm (parts other))
    (distinct : ((parts text).map keyOf).Nodup) (key : String) : given? text key = given? other key := by
  unfold given?
  rw [List.find?_eq_find?_of_perm same]
  rintro part ⟨hpart, e⟩ part' ⟨hpart', e'⟩
  rw [decide_eq_true_eq] at e e'
  exact List.inj_on_of_nodup_map distinct hpart hpart' (e.trans e'.symm)

/-- `a` is what the given text is read as, or the default when none is given. -/
def Takes {α : Type} (read? : String → Option α) (default : α) (given? : Option String) (a : α) : Prop :=
  given?.elim (some default) read? = some a

theorem takes_iff_read {α : Type} {f : String → Except ConfigError α} {read? : String → Option α}
    (reads : ∀ text a, f text = .ok a ↔ read? text = some a) (p : Params) (key : String) (default a : α) :
    Takes read? default (p.get? key) a ↔ ∃ o, p.read key f = .ok o ∧ o.getD default = a := by
  unfold Takes read
  cases p.get? key with
  | none =>
    constructor
    · rintro ⟨⟩
      exact ⟨none, rfl, rfl⟩
    · rintro ⟨o, ⟨⟩, rfl⟩
      rfl
  | some text =>
    change read? text = some a ↔ ∃ o, (some <$> f text) = .ok o ∧ o.getD default = a
    rw [← reads]
    cases f text with
    | error e => simp [Functor.map, Except.map]
    | ok b => simp [Functor.map, Except.map]

theorem takes_none_iff_read {α : Type} (f : String → Except ConfigError α) (p : Params) (key : String)
    (o : Option α) : Takes (fun text => (f text).toOption.map some) none (p.get? key) o ↔ p.read key f = .ok o := by
  unfold Takes read
  cases p.get? key with
  | none => exact ⟨fun h => congrArg Except.ok (Option.some.inj h), fun h => congrArg some (Except.ok.inj h)⟩
  | some text =>
    change (f text).toOption.map some = some o ↔ (some <$> f text) = .ok o
    cases f text with
    | error e => simp [Functor.map, Except.map, Except.toOption]
    | ok a => simp [Functor.map, Except.map, Except.toOption]

theorem toOption_eq_some_iff {α : Type} (x : Except ConfigError α) (a : α) : x = .ok a ↔ x.toOption = some a := by
  cases x <;> simp [Except.toOption]

theorem demand_eq_ok_iff {α : Type} (key : String) (kind : ValueKind) (f : String → Option α) (text : String)
    (a : α) : demand key kind f text = .ok a ↔ f text = some a := by
  unfold demand
  cases f text <;> simp

def finite? (text : String) : Option Float := (Decimal.readFloat? text).filter (·.isFinite)

def flag? (text : String) : Option Bool :=
  match Text.folded text with
  | "true" | "1" | "yes" => some true
  | "false" | "0" | "no" => some false
  | _ => none

section settings
variable {p : Params} {key : String}

theorem takes_word {default n : Nat} : Takes Decimal.readWord? default (p.get? key) n ↔
    ∃ o, p.read key (readWord key) = .ok o ∧ o.getD default = n :=
  takes_iff_read (demand_eq_ok_iff key .word _) p key default n

theorem takes_seed {default n : Nat} : Takes Decimal.readWord? default (p.get? key) n ↔
    ∃ o, p.read key (readSeed key) = .ok o ∧ o.getD default = n :=
  takes_iff_read (demand_eq_ok_iff key .seed _) p key default n

theorem takes_time {default t : Int} : Takes Decimal.readTime? default (p.get? key) t ↔
    ∃ o, p.read key (readTime key) = .ok o ∧ o.getD default = t :=
  takes_iff_read (demand_eq_ok_iff key .time _) p key default t

theorem takes_flag {default b : Bool} : Takes flag? default (p.get? key) b ↔
    ∃ o, p.read key (readFlag key) = .ok o ∧ o.getD default = b :=
  takes_iff_read (demand_eq_ok_iff key .boolean _) p key default b

theorem takes_float {default x : Float} : Takes finite? default (p.get? key) x ↔
    ∃ o, p.read key (readFloat key) = .ok o ∧ o.getD default = x := by
  refine takes_iff_read (fun text x => ?_) p key default x
  unfold finite? readFloat demand
  cases Decimal.readFloat? text with
  | none => simp [bind, Except.bind]
  | some y =>
    change (if y.isFinite then pure y else throw (ConfigError.notFinite key y)) = Except.ok x ↔ _
    by_cases finite : y.isFinite = true
    · rw [if_pos finite, Option.filter_some, if_pos finite]
      exact ⟨fun h => congrArg some (Except.ok.inj h), fun h => congrArg Except.ok (Option.some.inj h)⟩
    · rw [if_neg finite, Option.filter_some, if_neg finite]
      exact ⟨fun h => (nomatch h), fun h => (nomatch h)⟩

theorem takes_name {α : Type} {f : String → Except ConfigError α} {default a : α} :
    Takes (fun text => (f text).toOption) default (p.get? key) a ↔
      ∃ o, p.read key f = .ok o ∧ o.getD default = a :=
  takes_iff_read (fun text => toOption_eq_some_iff (f text)) p key default a

end settings

end Params

namespace GLCache

open Params (Takes given? parts keyOf)

/-- What can be set. -/
inductive Knob where
  | segmentSize
  | mergeCount
  | retain
  | rankInterval
  | signal
  | labels
  | retrainInterval
  | consecutive
  | selection
  | score
  | buckets
  | fallbackFraction
  | jitter
  | maxRows
  | warmup
  | utilityRetains
  | labelSkipsRetained
  | seed

namespace Knob

def key : Knob → String
  | segmentSize => "segment-size"
  | mergeCount => "n-merge"
  | retain => "n-retain"
  | rankInterval => "rank-intvl"
  | signal => "type"
  | labels => "train-source-y"
  | retrainInterval => "retrain-intvl"
  | consecutive => "merge-consecutive-segs"
  | selection => "selection"
  | score => "obj-score"
  | buckets => "bucket-type"
  | fallbackFraction => "rank-fallback-frac"
  | jitter => "randomize-merge"
  | maxRows => "max-training-rows"
  | warmup => "warmup-rtime"
  | utilityRetains => "utility-consider-retain"
  | labelSkipsRetained => "label-skip-retain"
  | seed => "seed"

/-- The setting is what the given text says, or the default of the knob. -/
def Sets (c : Config) (given? : Option String) : Knob → Prop
  | segmentSize => Takes Decimal.readWord? 100 given? c.segmentSize
  | mergeCount => Takes Decimal.readWord? 2 given? c.mergeCount
  | retain => Takes Decimal.readWord? c.segmentSize given? c.retain
  | rankInterval => Takes Params.finite? 0.05 given? c.rankInterval
  | signal => Takes (fun text => (Signal.ofName text).toOption) .learned given? c.signal
  | labels => Takes (fun text => (LabelSource.ofName text).toOption) .online given? c.labels
  | retrainInterval => Takes Decimal.readTime? 172800 given? c.retrainInterval
  | consecutive => Takes Params.flag? true given? c.consecutive
  | selection => Takes (fun text => (Selection.ofName text).toOption.map some) none given? c.selection
  | score => Takes (fun text => (Score.ofName text).toOption.map some) none given? c.score
  | buckets => Takes (fun text => (Buckets.ofName text).toOption) .single given? c.buckets
  | fallbackFraction => Takes Params.finite? 0.8 given? c.fallbackFraction
  | jitter => Takes Params.flag? false given? c.jitter
  | maxRows => Takes Decimal.readWord? 8192 given? c.maxRows
  | warmup => Takes Decimal.readTime? 86400 given? c.warmup
  | utilityRetains => Takes Params.flag? false given? c.utilityRetains
  | labelSkipsRetained => Takes Params.flag? false given? c.labelSkipsRetained
  | seed => Takes Decimal.readWord? 0 given? c.seed

def keys : List String :=
  ["segment-size", "n-merge", "n-retain", "rank-intvl", "type", "train-source-y", "retrain-intvl",
    "merge-consecutive-segs", "selection", "obj-score", "bucket-type", "rank-fallback-frac",
    "randomize-merge", "max-training-rows", "warmup-rtime", "utility-consider-retain",
    "label-skip-retain", "seed"]

theorem mem_keys_iff (key : String) : key ∈ keys ↔ ∃ k : Knob, key = k.key := by
  constructor
  · intro h
    simp only [keys, List.mem_cons, List.not_mem_nil, or_false] at h
    rcases h with h | h | h | h | h | h | h | h | h | h | h | h | h | h | h | h | h | h
    exacts [⟨segmentSize, h⟩, ⟨mergeCount, h⟩, ⟨retain, h⟩, ⟨rankInterval, h⟩, ⟨signal, h⟩, ⟨labels, h⟩,
      ⟨retrainInterval, h⟩, ⟨consecutive, h⟩, ⟨selection, h⟩, ⟨score, h⟩, ⟨buckets, h⟩,
      ⟨fallbackFraction, h⟩, ⟨jitter, h⟩, ⟨maxRows, h⟩, ⟨warmup, h⟩, ⟨utilityRetains, h⟩,
      ⟨labelSkipsRetained, h⟩, ⟨seed, h⟩]
  · rintro ⟨k, rfl⟩
    cases k <;> decide

end Knob

namespace Config

theorem finish_eq_ok_iff (p : Params) (policy : String) :
    (p.without Knob.keys).finish policy = .ok () ↔ ∀ e ∈ p.pairs, ∃ k : Knob, e.1 = k.key := by
  rw [Params.finish_eq_ok_iff, Params.without, List.filter_eq_nil_iff]
  simp only [decide_eq_true_eq, not_not, Knob.mem_keys_iff]

/-- Each setting is taken in turn, and after the last one the documented keys are gone. -/
theorem sets_of_settings {p rest : Params} {c : Config} (distinct : p.Distinct)
    (h : settings.outOf p = .ok (c, rest)) :
    rest = p.without Knob.keys ∧ ∀ k : Knob, k.Sets c (p.get? k.key) := by
  unfold settings at h
  rw [← p.without_nil] at h
  obtain ⟨segmentSize, hsegmentSize, h⟩ := (Params.outOf_takeAs_bind distinct (by decide)).1 h
  obtain ⟨mergeCount, hmergeCount, h⟩ := (Params.outOf_takeAs_bind distinct (by decide)).1 h
  obtain ⟨retain, hretain, h⟩ := (Params.outOf_takeAs_bind distinct (by decide)).1 h
  obtain ⟨rankInterval, hrankInterval, h⟩ := (Params.outOf_takeAs_bind distinct (by decide)).1 h
  obtain ⟨signal, hsignal, h⟩ := (Params.outOf_takeAs_bind distinct (by decide)).1 h
  obtain ⟨labels, hlabels, h⟩ := (Params.outOf_takeAs_bind distinct (by decide)).1 h
  obtain ⟨retrainInterval, hretrainInterval, h⟩ := (Params.outOf_takeAs_bind distinct (by decide)).1 h
  obtain ⟨consecutive, hconsecutive, h⟩ := (Params.outOf_takeAs_bind distinct (by decide)).1 h
  obtain ⟨selection, hselection, h⟩ := (Params.outOf_takeAs_bind distinct (by decide)).1 h
  obtain ⟨score, hscore, h⟩ := (Params.outOf_takeAs_bind distinct (by decide)).1 h
  obtain ⟨buckets, hbuckets, h⟩ := (Params.outOf_takeAs_bind distinct (by decide)).1 h
  obtain ⟨fallbackFraction, hfallbackFraction, h⟩ := (Params.outOf_takeAs_bind distinct (by decide)).1 h
  obtain ⟨jitter, hjitter, h⟩ := (Params.outOf_takeAs_bind distinct (by decide)).1 h
  obtain ⟨maxRows, hmaxRows, h⟩ := (Params.outOf_takeAs_bind distinct (by decide)).1 h
  obtain ⟨warmup, hwarmup, h⟩ := (Params.outOf_takeAs_bind distinct (by decide)).1 h
  obtain ⟨utilityRetains, hutilityRetains, h⟩ := (Params.outOf_takeAs_bind distinct (by decide)).1 h
  obtain ⟨labelSkipsRetained, hlabelSkipsRetained, h⟩ := (Params.outOf_takeAs_bind distinct (by decide)).1 h
  obtain ⟨seed, hseed, h⟩ := (Params.outOf_takeAs_bind distinct (by decide)).1 h
  cases h
  refine ⟨rfl, fun k => ?_⟩
  cases k with
  | segmentSize => exact Params.takes_word.2 ⟨_, hsegmentSize, rfl⟩
  | mergeCount => exact Params.takes_word.2 ⟨_, hmergeCount, rfl⟩
  | retain => exact Params.takes_word.2 ⟨_, hretain, rfl⟩
  | rankInterval => exact Params.takes_float.2 ⟨_, hrankInterval, rfl⟩
  | signal => exact Params.takes_name.2 ⟨_, hsignal, rfl⟩
  | labels => exact Params.takes_name.2 ⟨_, hlabels, rfl⟩
  | retrainInterval => exact Params.takes_time.2 ⟨_, hretrainInterval, rfl⟩
  | consecutive => exact Params.takes_flag.2 ⟨_, hconsecutive, rfl⟩
  | selection => exact (Params.takes_none_iff_read _ p _ _).2 hselection
  | score => exact (Params.takes_none_iff_read _ p _ _).2 hscore
  | buckets => exact Params.takes_name.2 ⟨_, hbuckets, rfl⟩
  | fallbackFraction => exact Params.takes_float.2 ⟨_, hfallbackFraction, rfl⟩
  | jitter => exact Params.takes_flag.2 ⟨_, hjitter, rfl⟩
  | maxRows => exact Params.takes_word.2 ⟨_, hmaxRows, rfl⟩
  | warmup => exact Params.takes_time.2 ⟨_, hwarmup, rfl⟩
  | utilityRetains => exact Params.takes_flag.2 ⟨_, hutilityRetains, rfl⟩
  | labelSkipsRetained => exact Params.takes_flag.2 ⟨_, hlabelSkipsRetained, rfl⟩
  | seed => exact Params.takes_seed.2 ⟨_, hseed, rfl⟩

/-- Settings that the knobs stand at are taken, whatever the order of the pairs. -/
theorem settings_of_sets {p : Params} {c : Config} (distinct : p.Distinct)
    (sets : ∀ k : Knob, k.Sets c (p.get? k.key)) : settings.outOf p = .ok (c, p.without Knob.keys) := by
  obtain ⟨segmentSize, hsegmentSize, e1⟩ := Params.takes_word.1 (sets .segmentSize)
  obtain ⟨mergeCount, hmergeCount, e2⟩ := Params.takes_word.1 (sets .mergeCount)
  obtain ⟨retain, hretain, e3⟩ := Params.takes_word.1 (sets .retain)
  obtain ⟨rankInterval, hrankInterval, e4⟩ := Params.takes_float.1 (sets .rankInterval)
  obtain ⟨signal, hsignal, e5⟩ := Params.takes_name.1 (sets .signal)
  obtain ⟨labels, hlabels, e6⟩ := Params.takes_name.1 (sets .labels)
  obtain ⟨retrainInterval, hretrainInterval, e7⟩ := Params.takes_time.1 (sets .retrainInterval)
  obtain ⟨consecutive, hconsecutive, e8⟩ := Params.takes_flag.1 (sets .consecutive)
  have hselection := (Params.takes_none_iff_read _ p _ _).1 (sets .selection)
  have hscore := (Params.takes_none_iff_read _ p _ _).1 (sets .score)
  obtain ⟨buckets, hbuckets, e9⟩ := Params.takes_name.1 (sets .buckets)
  obtain ⟨fallbackFraction, hfallbackFraction, e10⟩ := Params.takes_float.1 (sets .fallbackFraction)
  obtain ⟨jitter, hjitter, e11⟩ := Params.takes_flag.1 (sets .jitter)
  obtain ⟨maxRows, hmaxRows, e12⟩ := Params.takes_word.1 (sets .maxRows)
  obtain ⟨warmup, hwarmup, e13⟩ := Params.takes_time.1 (sets .warmup)
  obtain ⟨utilityRetains, hutilityRetains, e14⟩ := Params.takes_flag.1 (sets .utilityRetains)
  obtain ⟨labelSkipsRetained, hlabelSkipsRetained, e15⟩ := Params.takes_flag.1 (sets .labelSkipsRetained)
  obtain ⟨seed, hseed, e16⟩ := Params.takes_seed.1 (sets .seed)
  cases c
  dsimp only at *
  subst e1 e2 e3 e4 e5 e6 e7 e8 e9 e10 e11 e12 e13 e14 e15 e16
  unfold settings
  conv_lhs => rw [← p.without_nil]
  refine (Params.outOf_takeAs_bind distinct (by decide)).2 ⟨_, hsegmentSize, ?_⟩
  refine (Params.outOf_takeAs_bind distinct (by decide)).2 ⟨_, hmergeCount, ?_⟩
  refine (Params.outOf_takeAs_bind distinct (by decide)).2 ⟨_, hretain, ?_⟩
  refine (Params.outOf_takeAs_bind distinct (by decide)).2 ⟨_, hrankInterval, ?_⟩
  refine (Params.outOf_takeAs_bind distinct (by decide)).2 ⟨_, hsignal, ?_⟩
  refine (Params.outOf_takeAs_bind distinct (by decide)).2 ⟨_, hlabels, ?_⟩
  refine (Params.outOf_takeAs_bind distinct (by decide)).2 ⟨_, hretrainInterval, ?_⟩
  refine (Params.outOf_takeAs_bind distinct (by decide)).2 ⟨_, hconsecutive, ?_⟩
  refine (Params.outOf_takeAs_bind distinct (by decide)).2 ⟨_, hselection, ?_⟩
  refine (Params.outOf_takeAs_bind distinct (by decide)).2 ⟨_, hscore, ?_⟩
  refine (Params.outOf_takeAs_bind distinct (by decide)).2 ⟨_, hbuckets, ?_⟩
  refine (Params.outOf_takeAs_bind distinct (by decide)).2 ⟨_, hfallbackFraction, ?_⟩
  refine (Params.outOf_takeAs_bind distinct (by decide)).2 ⟨_, hjitter, ?_⟩
  refine (Params.outOf_takeAs_bind distinct (by decide)).2 ⟨_, hmaxRows, ?_⟩
  refine (Params.outOf_takeAs_bind distinct (by decide)).2 ⟨_, hwarmup, ?_⟩
  refine (Params.outOf_takeAs_bind distinct (by decide)).2 ⟨_, hutilityRetains, ?_⟩
  refine (Params.outOf_takeAs_bind distinct (by decide)).2 ⟨_, hlabelSkipsRetained, ?_⟩
  exact (Params.outOf_takeAs_bind distinct (by decide)).2 ⟨_, hseed, rfl⟩

theorem validate_of_ofParams {p : Params} {c : Config} (h : ofParams p = .ok c) : c.validate = .ok () := by
  obtain ⟨_, -, h⟩ := bind_eq_ok_iff.1 h
  obtain ⟨_, -, h⟩ := bind_eq_ok_iff.1 h
  obtain ⟨⟨⟩, valid, h⟩ := bind_eq_ok_iff.1 h
  cases h
  exact valid

theorem ofParams_eq_ok_iff {p : Params} {c : Config} (distinct : p.Distinct) : ofParams p = .ok c ↔
    (∀ e ∈ p.pairs, ∃ k : Knob, e.1 = k.key) ∧ (∀ k : Knob, k.Sets c (p.get? k.key)) ∧ c.validate = .ok () := by
  constructor
  · intro h
    have valid := validate_of_ofParams h
    obtain ⟨⟨_, rest⟩, taken, h⟩ := bind_eq_ok_iff.1 h
    obtain ⟨⟨⟩, finished, h⟩ := bind_eq_ok_iff.1 h
    obtain ⟨⟨⟩, -, ⟨⟩⟩ := bind_eq_ok_iff.1 h
    obtain ⟨rfl, sets⟩ := sets_of_settings distinct taken
    exact ⟨(finish_eq_ok_iff p _).1 finished, sets, valid⟩
  · rintro ⟨known, sets, valid⟩
    refine bind_eq_ok_iff.2 ⟨_, settings_of_sets distinct sets, ?_⟩
    refine bind_eq_ok_iff.2 ⟨_, (finish_eq_ok_iff p _).2 known, ?_⟩
    exact bind_eq_ok_iff.2 ⟨_, valid, rfl⟩

theorem passed {p : Prop} [Decidable p] {e : ConfigError} {f : PUnit → Except ConfigError Unit}
    {x : Except ConfigError Unit} (h : (if p then throw e >>= f else x) = .ok ()) : ¬p ∧ x = .ok () := by
  split at h
  · cases h
  · exact ⟨by assumption, h⟩

theorem bounds_of_validate {c : Config} (h : c.validate = .ok ()) :
    1 < c.segmentSize ∧ 1 < c.mergeCount ∧ 0 < c.retain ∧ 0 < c.retrainInterval := by
  unfold validate at h
  obtain ⟨segments, h⟩ := passed h
  obtain ⟨merged, h⟩ := passed h
  obtain ⟨-, h⟩ := passed h
  obtain ⟨retain, h⟩ := passed h
  obtain ⟨-, h⟩ := passed h
  obtain ⟨-, h⟩ := passed h
  obtain ⟨interval, h⟩ := passed h
  omega

theorem sizes_of_validate {c : Config} (h : c.validate = .ok ()) :
    2 ≤ c.mergeCount ∧ 2 * c.mergeCount ≤ c.segmentSize ∧ 1 ≤ c.retain ∧ c.retain ≤ c.segmentSize := by
  unfold validate at h
  obtain ⟨-, h⟩ := passed h
  obtain ⟨merged, h⟩ := passed h
  obtain ⟨shared, h⟩ := passed h
  obtain ⟨retained, -⟩ := passed h
  have two : 2 ≤ c.segmentSize / c.mergeCount := Nat.lt_of_not_le shared
  have whole : 2 * c.mergeCount ≤ c.segmentSize := (Nat.le_div_iff_mul_le (by omega)).1 two
  omega

/-- What a text has to say to be read as a configuration. -/
structure Spells (text : String) (c : Config) : Prop where
  assigns : ∀ part ∈ parts text, '=' ∈ part ∧ keyOf part ≠ ""
  distinct : ((parts text).map keyOf).Nodup
  known : ∀ part ∈ parts text, ∃ k : Knob, keyOf part = k.key
  sets : ∀ k : Knob, k.Sets c (given? text k.key)
  valid : c.validate = .ok ()

theorem parse_eq_ok_iff (text : String) (c : Config) : parse text = .ok c ↔ Spells text c := by
  unfold parse
  rw [bind_eq_ok_iff]
  constructor
  · rintro ⟨p, hp, h⟩
    obtain ⟨known, sets, valid⟩ := (ofParams_eq_ok_iff (Params.distinct_of_parse hp)).1 h
    obtain ⟨assigns, distinct, pairs⟩ := (Params.parse_eq_ok_iff text p).1 hp
    refine ⟨assigns, distinct, fun part hpart => ?_, fun k => ?_, valid⟩
    · exact known (Params.entryOf part) (pairs ▸ List.mem_map_of_mem hpart)
    · exact Params.get?_of_parse hp k.key ▸ sets k
  · intro h
    have hp : Params.parse text = .ok ⟨(parts text).map Params.entryOf⟩ :=
      (Params.parse_eq_ok_iff text _).2 ⟨h.assigns, h.distinct, rfl⟩
    refine ⟨_, hp, (ofParams_eq_ok_iff (Params.distinct_of_parse hp)).2 ⟨?_, fun k => ?_, h.valid⟩⟩
    · intro e he
      obtain ⟨part, hpart, rfl⟩ := List.mem_map.1 he
      exact h.known part hpart
    · rw [Params.get?_of_parse hp]
      exact h.sets k

theorem Spells.of_perm {text other : String} {c : Config} (h : Spells text c)
    (same : (parts text).Perm (parts other)) : Spells other c where
  assigns part hpart := h.assigns part (same.mem_iff.2 hpart)
  distinct := (same.map keyOf).nodup_iff.1 h.distinct
  known part hpart := h.known part (same.mem_iff.2 hpart)
  sets k := Params.given?_of_perm same h.distinct k.key ▸ h.sets k
  valid := h.valid

/-- A text and a permutation of its items are read as the same configuration or both refused. A text
is read as a configuration exactly if each item that is not blank gives a value to one of the
eighteen keys, no key twice, each setting is the value of its key or its default, and all settings
are in their ranges. -/
theorem parse_orderless (text : String) :
    (∀ other : String, (text.toList.splitOn ',').Perm (other.toList.splitOn ',') →
      (parse text).toOption = (parse other).toOption) ∧
    ∀ c, (parse text = .ok c ↔ Spells text c) ∧
      (parse text = .ok c → 2 ≤ c.mergeCount ∧ 2 * c.mergeCount ≤ c.segmentSize ∧ 1 ≤ c.retain ∧
        c.retain ≤ c.segmentSize) := by
  refine ⟨fun other same => ?_, fun c => ⟨parse_eq_ok_iff text c, fun h => ?_⟩⟩
  · have parts_same : (parts text).Perm (parts other) := same.filter _
    apply Option.ext
    intro c
    rw [← Params.toOption_eq_some_iff, ← Params.toOption_eq_some_iff, parse_eq_ok_iff, parse_eq_ok_iff]
    exact ⟨fun h => h.of_perm parts_same, fun h => h.of_perm parts_same.symm⟩
  · exact sizes_of_validate ((parse_eq_ok_iff text c).1 h).valid

/-- The number retained follows the segment size, on whichever side of it stands what. -/
theorem parse_orderless_retain :
    ("segment-size=20, N_Merge=4".toList.splitOn ',').Perm (" N_Merge=4,segment-size=20".toList.splitOn ',') ∧
      (parse "segment-size=20, N_Merge=4").toOption = (parse " N_Merge=4,segment-size=20").toOption ∧
      (parse "segment-size=20, N_Merge=4").toOption.map (fun c => (c.segmentSize, c.mergeCount, c.retain)) =
        some (20, 4, 20) := by
  have swapped : ("segment-size=20, N_Merge=4".toList.splitOn ',').Perm
      (" N_Merge=4,segment-size=20".toList.splitOn ',') := by decide +kernel
  exact ⟨swapped, (parse_orderless _).1 _ swapped, by decide +kernel⟩

end Config
end GLCache
end CacheReplay
