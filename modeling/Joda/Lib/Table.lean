import Mathlib.Algebra.Order.Group.Multiset
import Mathlib.Data.List.Perm.Basic

/-! # Tables

A table has one entry for each key that occurred, and the entry holds what occurred under that key.
Entries that are missing are added at the end, so two tables of the same things differ by the order of
their entries only. An update of an entry may fail. -/

namespace Joda.Lib.Table

variable {V K A : Type*} [DecidableEq K] (key : V → K)

/-- **The table holds what occurred**: an entry for each key under which there is something. -/
def Tabled (P : V → Multiset A → Prop) : List V → (K → Multiset A) → Prop
  | [], m => ∀ k, m k = 0
  | v :: vs, m => m (key v) ≠ 0 ∧ P v (m (key v)) ∧ Tabled P vs (Function.update m (key v) 0)

/-- The entry of a key is updated, or a new one is added. -/
def atKeyM (k : K) (new : V) (f : V → Option V) : List V → Option (List V)
  | [] => some [new]
  | v :: vs => if key v = k then (f v).map (· :: vs) else (atKeyM k new f vs).map (v :: ·)

def atKey (k : K) (new : V) (f : V → V) : List V → List V
  | [] => [new]
  | v :: vs => if key v = k then f v :: vs else v :: atKey k new f vs

theorem atKeyM_some (k : K) (new : V) (f : V → V) (vs : List V) :
    atKeyM key k new (fun v => some (f v)) vs = some (atKey key k new f vs) := by
  induction vs with
  | nil => rfl
  | cons v vs ih =>
    unfold atKeyM atKey
    rw [ih]
    split_ifs <;> rfl

/-- The entries of one table are taken into another. -/
def mergeTable (new : V → V) (f : V → V → Option V) : List V → List V → Option (List V)
  | [], vs => some vs
  | o :: os, vs => (atKeyM key (key o) (new o) (f o) vs).bind (mergeTable new f os)

variable {key} {P : V → Multiset A → Prop}

theorem Tabled.ne_zero {vs : List V} : ∀ {m : K → Multiset A}, Tabled key P vs m → ∀ v ∈ vs,
    m (key v) ≠ 0 := by
  induction vs with
  | nil => exact fun _ v hv => absurd hv List.not_mem_nil
  | cons w vs ih =>
    intro m h v hv
    rcases List.mem_cons.mp hv with rfl | hv
    · exact h.1
    · have hne := ih h.2.2 v hv
      by_cases hk : key v = key w
      · rw [hk, Function.update_self] at hne
        exact absurd rfl hne
      · rwa [Function.update_of_ne hk] at hne

/-- **An update of the entry of a key.** -/
theorem Tabled.updateM {k : K} {new : V} {f : V → Option V} {d : Multiset A} (hd : d ≠ 0)
    (hnew : key new = k ∧ P new d)
    (hf : ∀ v w, key v = k → P v w → ∃ r, f v = some r ∧ key r = k ∧ P r (w + d)) :
    ∀ {vs : List V} {m : K → Multiset A}, Tabled key P vs m →
      ∃ r, atKeyM key k new f vs = some r ∧ Tabled key P r (Function.update m k (m k + d))
  | [], m, h => by
    refine ⟨[new], rfl, ?_⟩
    have hzero : ∀ k, m k = 0 := h
    unfold Tabled
    rw [hnew.1, Function.update_self, hzero k, zero_add]
    refine ⟨hd, hnew.2, fun k' => ?_⟩
    by_cases hk : k' = k
    · rw [hk, Function.update_self]
    · rw [Function.update_of_ne hk, Function.update_of_ne hk, hzero]
  | v :: vs, m, h => by
    obtain ⟨hne, hv, hrest⟩ := h
    unfold atKeyM
    by_cases hk : key v = k
    · obtain ⟨r, hr, hkey, hPr⟩ := hf v _ hk hv
      refine ⟨r :: vs, by rw [if_pos hk, hr]; rfl, ?_⟩
      unfold Tabled
      rw [hk] at hPr hne hrest
      rw [hkey, Function.update_self, Function.update_idem]
      exact ⟨fun h0 => hne (Multiset.le_zero.mp (h0 ▸ Multiset.le_add_right _ _)), hPr, hrest⟩
    · obtain ⟨r, hr, htab⟩ := Tabled.updateM hd hnew hf hrest
      refine ⟨v :: r, by rw [if_neg hk, hr]; rfl, ?_⟩
      unfold Tabled
      rw [Function.update_of_ne hk]
      refine ⟨hne, hv, ?_⟩
      rwa [Function.update_of_ne (Ne.symm hk), Function.update_comm hk] at htab

theorem Tabled.update {k : K} {new : V} {f : V → V} {d : Multiset A} (hd : d ≠ 0)
    (hnew : key new = k ∧ P new d)
    (hf : ∀ v w, key v = k → P v w → key (f v) = k ∧ P (f v) (w + d)) {vs : List V}
    {m : K → Multiset A} (h : Tabled key P vs m) :
    Tabled key P (atKey key k new f vs) (Function.update m k (m k + d)) := by
  obtain ⟨r, hr, htab⟩ := Tabled.updateM (f := fun v => some (f v)) hd hnew
    (fun v w hk hv => ⟨f v, rfl, hf v w hk hv⟩) h
  rw [atKeyM_some] at hr
  rwa [← Option.some.inj hr] at htab

/-- **A table that is taken into another adds what it holds.** -/
theorem Tabled.merged {new : V → V} {f : V → V → Option V} :
    ∀ {os vs : List V} {m n : K → Multiset A},
      (∀ o ∈ os, ∀ a, P o a → (key (new o) = key o ∧ P (new o) a) ∧
        ∀ v w, key v = key o → P v w → ∃ r, f o v = some r ∧ key r = key o ∧ P r (w + a)) →
      Tabled key P vs m → Tabled key P os n →
      ∃ r, mergeTable key new f os vs = some r ∧ Tabled key P r (fun k => m k + n k)
  | [], vs, m, n, _, h, ho => by
    refine ⟨vs, rfl, ?_⟩
    have hzero : ∀ k, n k = 0 := ho
    simpa only [hzero, add_zero] using h
  | o :: os, vs, m, n, hf, h, ho => by
    obtain ⟨hne, hPo, hrest⟩ := ho
    obtain ⟨hnew, hupdate⟩ := hf o List.mem_cons_self _ hPo
    obtain ⟨r, hr, htab⟩ := Tabled.updateM hne hnew hupdate h
    obtain ⟨r', hr', htab'⟩ := Tabled.merged
      (fun o' ho' => hf o' (List.mem_cons_of_mem _ ho')) htab hrest
    refine ⟨r', by rw [mergeTable, hr]; exact hr', ?_⟩
    convert htab' using 2 with k
    by_cases hk : k = key o
    · rw [hk, Function.update_self, Function.update_self, add_zero]
    · rw [Function.update_of_ne hk, Function.update_of_ne hk]

/-- The entry of a key under which there is something. -/
theorem Tabled.find {k : K} : ∀ {vs : List V} {m : K → Multiset A}, Tabled key P vs m → m k ≠ 0 →
    ∃ l v r, vs = l ++ v :: r ∧ key v = k ∧ P v (m k) ∧
      Tabled key P (l ++ r) (Function.update m k 0)
  | [], m, h, hk => absurd (h k) hk
  | v :: vs, m, h, hk => by
    obtain ⟨hne, hv, hrest⟩ := h
    by_cases hkv : key v = k
    · subst hkv
      exact ⟨[], v, vs, rfl, rfl, hv, hrest⟩
    · rw [← Function.update_of_ne (Ne.symm hkv) 0 m] at hk
      obtain ⟨l, w, r, rfl, hkey, hw, htab⟩ := hrest.find hk
      rw [Function.update_of_ne (Ne.symm hkv)] at hw
      refine ⟨v :: l, w, r, rfl, hkey, hw, ?_⟩
      rw [List.cons_append]
      unfold Tabled
      rw [Function.update_of_ne hkv]
      exact ⟨hne, hv, by rwa [Function.update_comm (Ne.symm hkv)]⟩

/-- **The entry of a key is found** if there is something under it. -/
theorem Tabled.find?_eq {k : K} : ∀ {vs : List V} {m : K → Multiset A}, Tabled key P vs m →
    (m k = 0 → vs.find? (key · = k) = none) ∧
      (m k ≠ 0 → ∃ v, vs.find? (key · = k) = some v ∧ P v (m k))
  | [], m, h => ⟨fun _ => rfl, fun hk => absurd (h k) hk⟩
  | v :: vs, m, h => by
    obtain ⟨hne, hv, hrest⟩ := h
    rw [List.find?_cons]
    by_cases hkv : key v = k
    · subst hkv
      rw [decide_eq_true rfl]
      exact ⟨fun hzero => absurd hzero hne, fun _ => ⟨v, rfl, hv⟩⟩
    · rw [decide_eq_false hkv, ← Function.update_of_ne (Ne.symm hkv) 0 m]
      exact hrest.find?_eq

/-- **Two tables of the same things** have the same entries, up to order. -/
theorem Tabled.unique {R : V → V → Prop} : ∀ {vs ws : List V} {m : K → Multiset A},
    (∀ v ∈ vs, ∀ w a, key v = key w → P v a → P w a → R v w) → Tabled key P vs m →
      Tabled key P ws m → ∃ l, l.Perm ws ∧ List.Forall₂ R vs l
  | [], ws, m, _, h, h' => by
    have hws : ws = [] := List.eq_nil_iff_forall_not_mem.mpr fun w hw => h'.ne_zero w hw (h _)
    exact ⟨[], by rw [hws], .nil⟩
  | v :: vs, ws, m, hR, h, h' => by
    obtain ⟨hne, hv, hrest⟩ := h
    obtain ⟨l, w, r, rfl, hkey, hw, htab⟩ := h'.find hne
    obtain ⟨l', hperm, hall⟩ :=
      Tabled.unique (fun v' hv' => hR v' (List.mem_cons_of_mem _ hv')) hrest htab
    refine ⟨w :: l', (hperm.cons w).trans List.perm_middle.symm, ?_⟩
    exact .cons (hR v List.mem_cons_self w _ hkey.symm hv hw) hall

/-- A table that was made at once. -/
theorem tabled_of_nodup : ∀ {vs : List V} {m : K → Multiset A}, (vs.map key).Nodup →
    (∀ v ∈ vs, m (key v) ≠ 0 ∧ P v (m (key v))) → (∀ k, k ∉ vs.map key → m k = 0) →
      Tabled key P vs m
  | [], m, _, _, hzero => fun k => hzero k List.not_mem_nil
  | v :: vs, m, hnodup, hall, hzero => by
    obtain ⟨hv, hnodup⟩ := List.nodup_cons.mp hnodup
    obtain ⟨hne, hP⟩ := hall v List.mem_cons_self
    refine ⟨hne, hP, tabled_of_nodup hnodup (fun w hw => ?_) fun k hk => ?_⟩
    · have hkey : key w ≠ key v := fun h => hv (h ▸ List.mem_map_of_mem hw)
      rw [Function.update_of_ne hkey]
      exact hall w (List.mem_cons_of_mem _ hw)
    · by_cases hkv : k = key v
      · rw [hkv, Function.update_self]
      · rw [Function.update_of_ne hkv]
        exact hzero k fun h => (List.mem_cons.mp h).elim hkv hk

/-- The keys stay, and the key is among them. -/
theorem keys_atKeyM {k : K} {new : V} {f : V → Option V} (hnew : key new = k)
    (hf : ∀ v r, f v = some r → key r = key v) : ∀ {vs r : List V}, atKeyM key k new f vs = some r →
      (r.map key = vs.map key ∧ k ∈ vs.map key) ∨ (r.map key = vs.map key ++ [k] ∧ k ∉ vs.map key)
  | [], r, h => by
    obtain rfl := Option.some.inj h
    exact Or.inr ⟨by rw [List.map_singleton, hnew]; rfl, List.not_mem_nil⟩
  | v :: vs, r, h => by
    unfold atKeyM at h
    by_cases hk : key v = k
    · rw [if_pos hk] at h
      obtain ⟨w, hw, rfl⟩ := Option.map_eq_some_iff.mp h
      refine Or.inl ⟨by rw [List.map_cons, List.map_cons, hf v w hw], ?_⟩
      rw [List.map_cons, hk]
      exact List.mem_cons_self
    · rw [if_neg hk] at h
      obtain ⟨ws, hws, rfl⟩ := Option.map_eq_some_iff.mp h
      rcases keys_atKeyM hnew hf hws with ⟨hkeys, hmem⟩ | ⟨hkeys, hmem⟩
      · exact Or.inl ⟨by rw [List.map_cons, List.map_cons, hkeys], List.mem_cons_of_mem _ hmem⟩
      · refine Or.inr ⟨by rw [List.map_cons, List.map_cons, hkeys]; rfl, fun h => ?_⟩
        rcases List.mem_cons.mp h with heq | hmem'
        · exact hk heq.symm
        · exact hmem hmem'

theorem atKey_of_not_mem {k : K} {new : V} {f : V → V} : ∀ {vs : List V}, k ∉ vs.map key →
    atKey key k new f vs = vs ++ [new]
  | [], _ => rfl
  | v :: vs, h => by
    rw [List.map_cons, List.mem_cons, not_or] at h
    rw [atKey, if_neg (Ne.symm h.1), atKey_of_not_mem h.2, List.cons_append]

theorem atKey_of_mem {k : K} {new : V} {f : V → V} : ∀ {vs : List V}, (vs.map key).Nodup →
    k ∈ vs.map key → atKey key k new f vs = vs.map fun v => if key v = k then f v else v
  | [], _, h => absurd h List.not_mem_nil
  | v :: vs, hnodup, h => by
    obtain ⟨hv, hnodup⟩ := List.nodup_cons.mp hnodup
    rw [atKey, List.map_cons]
    by_cases hk : key v = k
    · rw [if_pos hk, if_pos hk]
      congr 1
      refine (List.map_id _).symm.trans (List.map_congr_left fun w hw => (if_neg ?_).symm)
      exact fun hw' => hv (by rw [hk, ← hw']; exact List.mem_map_of_mem hw)
    · rw [if_neg hk, if_neg hk, atKey_of_mem hnodup]
      exact (List.mem_cons.mp h).resolve_left (Ne.symm hk)

/-- A table seen through a map that keeps the keys. -/
theorem atKey_map {W : Type*} (key : V → K) (key' : W → K) (φ : V → W) (new : V)
    (hφ : ∀ v, key' (φ v) = key v) {k : K} {f : V → V} {f' : W → W}
    (hf : ∀ v, f' (φ v) = φ (f v)) : ∀ vs : List V,
      atKey key' k (φ new) f' (vs.map φ) = (atKey key k new f vs).map φ
  | [] => rfl
  | v :: vs => by
    rw [List.map_cons, atKey, atKey, hφ, hf]
    by_cases hk : key v = k
    · rw [if_pos hk, if_pos hk, List.map_cons]
    · rw [if_neg hk, if_neg hk, List.map_cons, atKey_map key key' φ new hφ hf vs]

end Joda.Lib.Table
