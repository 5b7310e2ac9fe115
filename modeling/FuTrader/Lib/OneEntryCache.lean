import Mathlib.Data.List.Chain

/- A cache of one entry: the value computed last, under the key of what it was computed of. -/
namespace OneEntryCache
variable {α κ β : Type}

@[ext] structure Cache (κ β : Type) where
  key : κ
  value : β

variable [DecidableEq κ] (key : α → κ) (f : α → β)

/-- The entry after it was looked up for `a`; its value is the one that is returned. -/
def Cache.lookup (c : Cache κ β) (a : α) : Cache κ β :=
  if key a ≠ c.key then ⟨key a, f a⟩ else c

def Cache.values (c : Cache κ β) : List α → List β
  | [] => []
  | a :: as => (c.lookup key f a).value :: values (c.lookup key f a) as

/-- Looked up right after `a`, `b` gets the value that it gets from the cache `start`. -/
structure Agree (start : Cache κ β) (a b : α) : Prop where
  hit : key b = key a → key b ≠ start.key → f b = f a
  back : key b = start.key → key a ≠ start.key → f b = start.value

variable {key f} {start : Cache κ β}

theorem lookup_hit {c : Cache κ β} {a : α} (hit : key a = c.key) : c.lookup key f a = c :=
  if_neg (not_not.mpr hit)

theorem lookup_miss {c : Cache κ β} {a : α} (miss : key a ≠ c.key) :
    c.lookup key f a = ⟨key a, f a⟩ := if_pos miss

theorem lookup_agree (a b : α) :
    ((start.lookup key f a).lookup key f b).value = (start.lookup key f b).value ↔
      Agree key f start a b := by
  by_cases first : key a = start.key
  · rw [lookup_hit first]
    refine iff_of_true rfl ⟨?_, ?_⟩
    · intro same apart
      exact absurd (same.trans first) apart
    · intro _ apart
      exact absurd first apart
  · rw [lookup_miss first]
    by_cases same : key b = key a
    · have apart : key b ≠ start.key := same ▸ first
      rw [lookup_hit (c := ⟨key a, f a⟩) same, lookup_miss apart]
      constructor
      · intro value
        exact ⟨fun _ _ => value.symm, fun again => absurd again apart⟩
      · intro agree
        exact (agree.hit same apart).symm
    · rw [lookup_miss (c := ⟨key a, f a⟩) same]
      by_cases again : key b = start.key
      · rw [lookup_hit again]
        constructor
        · intro value
          exact ⟨fun hit => absurd hit same, fun _ _ => value⟩
        · intro agree
          exact agree.back again first
      · rw [lookup_miss again]
        exact iff_of_true rfl ⟨fun hit => absurd hit same, fun hit => absurd hit again⟩

theorem lookup_key (c : Cache κ β) (a : α) : (c.lookup key f a).key = key a := by
  by_cases hit : key a = c.key
  · rw [lookup_hit hit, hit]
  · rw [lookup_miss hit]

theorem Agree.lookup {a b : α} (agree : Agree key f start a b) :
    (start.lookup key f a).lookup key f b = start.lookup key f b := by
  apply Cache.ext
  · rw [lookup_key, lookup_key]
  · exact (lookup_agree a b).mpr agree

theorem values_after (a : α) (as : List α) :
    (start.lookup key f a).values key f as = as.map (fun b => (start.lookup key f b).value) ↔
      (a :: as).IsChain (Agree key f start) := by
  induction as generalizing a with
  | nil => simp [Cache.values]
  | cons b as ih =>
    rw [Cache.values, List.map_cons, List.cons.injEq, lookup_agree, List.isChain_cons_cons]
    apply and_congr_right
    intro agree
    rw [agree.lookup]
    exact ih b

/-- No value depends on the lookups before it exactly if each two consecutive ones agree. -/
theorem values_iff (as : List α) :
    start.values key f as = as.map (fun a => (start.lookup key f a).value) ↔
      as.IsChain (Agree key f start) := by
  cases as with
  | nil => simp [Cache.values]
  | cons a as =>
    rw [Cache.values, List.map_cons, List.cons.injEq, values_after]
    simp

end OneEntryCache
