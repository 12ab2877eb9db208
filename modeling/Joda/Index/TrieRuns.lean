import Joda.Index.TrieSearch

/-! # Runs of the trie

The answers of `findEq` and `findStartsWith` after any earlier queries. `Meets` is the condition on a
query and the trie it finds; under it, and only under it, the answer is right (`call_spec`). The trie
has to be filled well: no value may be empty, for the code throws at one, and a full initialisation
needs values with different first characters, for it compresses the root otherwise, and the search
takes no notice of the first character of the root. -/

namespace Joda.Index.TrieRuns

open Joda.Index.Trie Joda.Index.TrieInvariant Joda.Index.TrieSearch Joda.Lib.Runs

variable {docs : Documents}

/-! ### What is asked for -/

/-- **The right answer** to a query: the documents whose value is, or begins with, the text. -/
def Right (docs : Documents) : Call → Finset ℕ → Prop
  | .findEq s, result => ∀ k, k ∈ result ↔ docs.string k = some s
  | .findStartsWith s, result => ∀ k, k ∈ result ↔ ∃ v, docs.string k = some v ∧ s <+: v
  | _, _ => True

/-- The search for `s` does not end with the first character of a compressed node at which a value
ends. -/
def EqMeets (root : Node) (s : Str) : Prop :=
  ∀ n, nodeAt s s.length 0 root = some n → n.chars.length ≤ 1 ∨ n.exactMatchingDocs = []

/-- A value `s` of which no other value is a continuation has its node read already, or there are no
other values beside it; `here` is the node of the lookup. -/
def StartsWithOk (docs : Documents) (s : Str) (here : Option Node) : Prop :=
  (∃ k, At (values docs) s k) → (∀ k, ¬ Beyond (values docs) s k) →
    match here with
    | some n => n.isVirtual = false
    | none => ∀ k, Below (values docs) s.dropLast k → At (values docs) s k

def StartsWithMeets (docs : Documents) (root : Node) (s : Str) : Prop :=
  StartsWithOk docs s (nodeAt s s.length 0 root)

/-- **The condition on a query** and the trie it finds. The first part is about zero bytes: what
follows one in a value is not seen. -/
def Meets (docs : Documents) (root : Node) : Call → Prop
  | .findEq s => (∀ k v, docs.string k = some v → (cString v = s ↔ v = s)) ∧ EqMeets root s
  | .findStartsWith s =>
    (∀ k v, docs.string k = some v → (s <+: cString v ↔ s <+: v)) ∧ StartsWithMeets docs root s
  | _ => True

theorem at_iff {s : Str} {k : ℕ} :
    At (values docs) s k ↔ ∃ v, docs.string k = some v ∧ cString v = s := by
  rw [At, values, Option.map_eq_some_iff]

theorem below_iff_string {s : Str} {k : ℕ} :
    Below (values docs) s k ↔ ∃ v, docs.string k = some v ∧ s <+: cString v := by
  constructor
  · rintro ⟨w, hw, hp⟩
    obtain ⟨v, hv, rfl⟩ := Option.map_eq_some_iff.mp hw
    exact ⟨v, hv, hp⟩
  · rintro ⟨v, hv, hp⟩
    exact ⟨cString v, by rw [values, hv]; rfl, hp⟩

/-! ### findEq -/

/-- The documents `findEq` takes from the node it found. -/
def eqResult : Option Node → Finset ℕ
  | none => ∅
  | some n => n.exactMatchingDocs.toFinset

/-- **Where `findEq` ends**: at the documents of the text, or, against the condition, at those of a
longer one. -/
theorem eqResult_spec {s : Str} {here r : Option Node} (h : Outcome (values docs) s false here r) :
    ((∀ n, here = some n → n.chars.length ≤ 1 ∨ n.exactMatchingDocs = []) ∧
      ∀ k, k ∈ eqResult r ↔ At (values docs) s k) ∨
    ((¬ ∀ n, here = some n → n.chars.length ≤ 1 ∨ n.exactMatchingDocs = []) ∧
      ∃ k P, s.length < P.length ∧ k ∈ eqResult r ∧ At (values docs) P k) := by
  cases h with
  | missed h hno =>
    refine Or.inl ⟨fun n hn => ?_, fun k => iff_of_false (by simp [eqResult]) (hno k)⟩
    rw [h] at hn; cases hn
  | @fresh base c n h hw hc hv hl hother =>
    refine Or.inl ⟨fun n hn => ?_, fun k => ?_⟩
    · rw [h] at hn; cases hn
    · rcases wf_iff.mp hw with ⟨-, he, -⟩ | ⟨cs, -, -, -, hi⟩
      · rw [eqResult, List.mem_toFinset, he, hc]
      · rw [hi.notVirtual] at hv; cases hv
  | @inside base cs c n h hi hlt hb hp hall heq =>
    refine Or.inl ⟨fun n hn => ?_, fun k => ?_⟩
    · rw [h] at hn; cases hn
    · rw [eqResult, List.mem_toFinset, hi.exact_iff, heq rfl]
  | @entered base c n h hw hc =>
    rcases wf_iff.mp hw with ⟨hn, he, -⟩ | ⟨cs, hchars, hthrough, -, hi⟩
    · refine Or.inl ⟨fun m hm => ?_, fun k => ?_⟩
      · obtain rfl := Option.some.inj (h.symm.trans hm)
        left; rw [hn]; rfl
      · rw [eqResult, List.mem_toFinset, he, hc]
    · cases cs with
      | nil =>
        refine Or.inl ⟨fun m hm => ?_, fun k => ?_⟩
        · obtain rfl := Option.some.inj (h.symm.trans hm)
          left; rw [hchars]; rfl
        · rw [eqResult, List.mem_toFinset, hi.exact_iff, hc]
      | cons d cs =>
        have hlong : s.length < (base ++ c :: d :: cs).length := by
          rw [hc]; simp
        by_cases hempty : n.exactMatchingDocs = []
        · refine Or.inl ⟨fun m hm => ?_, fun k => iff_of_false ?_ fun hk => ?_⟩
          · obtain rfl := Option.some.inj (h.symm.trans hm)
            exact Or.inr hempty
          · simp [eqResult, hempty]
          · exact hk.not_below hlong (hthrough k (by rw [← hc]; exact below_of_at hk))
        · obtain ⟨k, hk⟩ := List.exists_mem_of_ne_nil _ hempty
          refine Or.inr ⟨fun hall => ?_, k, _, hlong, ?_, (hi.exact_iff k).mp hk⟩
          · rcases hall n h with h1 | h1
            · rw [hchars] at h1; simp at h1
            · exact hempty h1
          · rwa [eqResult, List.mem_toFinset]

/-- The answer is right exactly if the condition holds. -/
theorem eq_right_iff {s : Str} {result : Finset ℕ} {cond : Prop}
    (h : (cond ∧ ∀ k, k ∈ result ↔ At (values docs) s k) ∨
      (¬ cond ∧ ∃ k P, s.length < P.length ∧ k ∈ result ∧ At (values docs) P k)) :
    Right docs (.findEq s) result ↔
      (∀ k v, docs.string k = some v → (cString v = s ↔ v = s)) ∧ cond := by
  rcases h with ⟨hc, hres⟩ | ⟨hc, k, P, hlen, hk, hP⟩
  · rw [and_iff_left hc]
    constructor
    · intro hr k v hv
      have := (hres k).symm.trans (hr k)
      rw [at_iff, hv] at this
      simpa [eq_comm] using this
    · intro hz k
      rw [hres k, at_iff]
      constructor
      · rintro ⟨v, hv, hs⟩
        rw [hv, (hz k v hv).mp hs]
      · intro hv
        exact ⟨s, hv, (hz k s hv).mpr rfl⟩
  · refine iff_of_false (fun hr => ?_) fun h => hc h.2
    obtain ⟨v, hv, rfl⟩ := at_iff.mp hP
    have hs := (hr k).mp hk
    obtain rfl := Option.some.inj (hv.symm.trans hs)
    have := (cString_initial v).length_le
    omega

/-! ### findStartsWith -/

/-- The documents `findStartsWith` takes from the node it found. -/
def startsWithResult : Option Node → Finset ℕ
  | none => ∅
  | some n =>
    if n.isVirtual ∧ n.startMatchingDocs.length = 0 then ∅ else (collectDocuments n).toFinset

/-- `findStartsWith` at the node of the text itself. -/
theorem startsWithResult_at {s base : Str} {c : UInt8} {n : Node} (hw : Wf (values docs) base c n)
    (hc : s = base ++ [c]) :
    (n.isVirtual = true ∧ (∀ k, ¬ Beyond (values docs) s k) ∧ startsWithResult (some n) = ∅) ∨
    ((n.isVirtual = true → ∃ k, Beyond (values docs) s k) ∧
      ∀ k, k ∈ startsWithResult (some n) ↔ Below (values docs) s k) := by
  have hcollect : ∀ k, k ∈ (collectDocuments n).toFinset ↔ Below (values docs) s k := fun k => by
    rw [List.mem_toFinset, mem_collectDocuments hw, hc]
  by_cases hempty : n.isVirtual = true ∧ n.startMatchingDocs.length = 0
  · left
    refine ⟨hempty.1, fun k hk => ?_, if_pos hempty⟩
    rcases wf_iff.mp hw with ⟨-, -, hs⟩ | ⟨cs, -, -, -, hi⟩
    · have := (hs k).mpr (hc ▸ hk)
      rw [List.length_eq_zero_iff.mp hempty.2] at this
      cases this
    · have := hi.notVirtual
      rw [hempty.1] at this
      cases this
  · right
    refine ⟨fun hv => ?_, fun k => ?_⟩
    · rcases wf_iff.mp hw with ⟨-, -, hs⟩ | ⟨cs, -, -, -, hi⟩
      · obtain ⟨k, hk⟩ : ∃ k, k ∈ n.startMatchingDocs :=
          List.exists_mem_of_ne_nil _ fun h => hempty ⟨hv, by rw [h]; rfl⟩
        exact ⟨k, hc ▸ (hs k).mp hk⟩
      · rw [hi.notVirtual] at hv; cases hv
    · rw [startsWithResult, if_neg hempty, hcollect]

theorem startsWith_none {s : Str} (hb : ∀ k, ¬ Beyond (values docs) s k)
    (hno : ¬ ∃ k, At (values docs) s k) (k : ℕ) : k ∈ (∅ : Finset ℕ) ↔ Below (values docs) s k := by
  refine iff_of_false (by simp) fun hk => ?_
  rcases below_iff.mp hk with h | h
  · exact hno ⟨k, h⟩
  · exact hb k h

/-- **Where `findStartsWith` ends**: at all documents that begin with the text, or, against the
condition, at none although there are some. -/
theorem startsWithResult_spec {s : Str} {here r : Option Node}
    (h : Outcome (values docs) s true here r) :
    (StartsWithOk docs s here ∧ ∀ k, k ∈ startsWithResult r ↔ Below (values docs) s k) ∨
    (¬ StartsWithOk docs s here ∧ (∃ k, At (values docs) s k) ∧ startsWithResult r = ∅) := by
  cases h with
  | missed h hno hsw =>
    exact Or.inl ⟨fun hex => absurd hex fun ⟨k, hk⟩ => hno k hk,
      fun k => iff_of_false (by simp [startsWithResult]) (hsw rfl k)⟩
  | @entered base c n h hw hc =>
    subst h
    rcases startsWithResult_at hw hc with ⟨hv, hb, hres⟩ | ⟨hv, hres⟩
    · by_cases hex : ∃ k, At (values docs) s k
      · refine Or.inr ⟨fun hok => ?_, hex, hres⟩
        have : n.isVirtual = false := hok hex hb
        rw [hv] at this
        cases this
      · exact Or.inl ⟨fun hex' => absurd hex' hex, hres ▸ startsWith_none hb hex⟩
    · refine Or.inl ⟨fun _ hb => ?_, hres⟩
      show n.isVirtual = false
      by_contra hn
      obtain ⟨k, hk⟩ := hv (by simpa using hn)
      exact hb k hk
  | @fresh base c n h hw hc hv hl hother =>
    subst h
    rcases startsWithResult_at hw hc with ⟨-, hb, hres⟩ | ⟨hv', hres⟩
    · by_cases hex : ∃ k, At (values docs) s k
      · refine Or.inr ⟨fun hok => ?_, hex, hres⟩
        obtain ⟨k, v, hkv, hp, hne⟩ := hother
        have : At (values docs) s k := hok hex hb k ⟨v, hkv, by rwa [hc, List.dropLast_concat]⟩
        exact hne (Option.some.inj (hkv.symm.trans this))
      · exact Or.inl ⟨fun hex' => absurd hex' hex, hres ▸ startsWith_none hb hex⟩
    · obtain ⟨k, hk⟩ := hv' hv
      exact Or.inl ⟨fun _ hb => absurd hk (hb k), hres⟩
  | @inside base cs c n h hi hlt hb hp hall heq =>
    subst h
    have hbelow : ∀ k, Below (values docs) (base ++ [c]) k → Below (values docs) s k := fun k hk =>
      (hall k hk).mono hp
    refine Or.inl ⟨fun _ hbe k hk => ?_, fun k => ?_⟩
    · have hdrop : base ++ [c] <+: s.dropLast := by
        refine List.prefix_of_prefix_length_le hb (List.dropLast_prefix s) ?_
        rw [List.length_dropLast]
        omega
      exact (below_iff.mp (hbelow k (hk.mono hdrop))).resolve_right (hbe k)
    · rw [startsWithResult, if_neg (fun h => by rw [hi.notVirtual] at h; cases h.1),
        List.mem_toFinset, hi.mem_collect]
      exact ⟨fun hk => hk.mono hp, fun hk => hall k (hk.mono hb)⟩

theorem startsWith_right_iff {s : Str} {result : Finset ℕ} {cond : Prop}
    (h : (cond ∧ ∀ k, k ∈ result ↔ Below (values docs) s k) ∨
      (¬ cond ∧ (∃ k, At (values docs) s k) ∧ result = ∅)) :
    Right docs (.findStartsWith s) result ↔
      (∀ k v, docs.string k = some v → (s <+: cString v ↔ s <+: v)) ∧ cond := by
  rcases h with ⟨hc, hres⟩ | ⟨hc, ⟨k, hk⟩, rfl⟩
  · rw [and_iff_left hc]
    constructor
    · intro hr k v hv
      have := (hres k).symm.trans (hr k)
      rw [below_iff_string, hv] at this
      simpa using this
    · intro hz k
      rw [hres k, below_iff_string]
      exact exists_congr fun v => and_congr_right fun hv => hz k v hv
  · refine iff_of_false (fun hr => ?_) fun h => hc h.2
    obtain ⟨v, hv, rfl⟩ := at_iff.mp hk
    have := (hr k).mpr ⟨v, hv, cString_initial v⟩
    simp at this

/-! ### One query -/

theorem findEq_spec {root : Node} (h : Rooted docs root) (s : Str) :
    ∃ result root', findEq docs root s = some (result, root') ∧ Rooted docs root' ∧
      (Right docs (.findEq s) result ↔ Meets docs root (.findEq s)) := by
  cases s with
  | nil =>
    refine ⟨root.exactMatchingDocs.toFinset, root, rfl, h, eq_right_iff (Or.inl ⟨?_, fun k => ?_⟩)⟩
    · intro n hn
      obtain rfl := Option.some.inj hn
      left; rw [h.chars]; simp
    · rw [List.mem_toFinset, h.inside.exact_iff]
  | cons c rest =>
    obtain ⟨r, root', cache', h1, h2, h3⟩ := find_root false h c rest
    refine ⟨eqResult r, root', ?_, h2, eq_right_iff (eqResult_spec h3)⟩
    rw [findEq, h1]
    cases r <;> rfl

theorem findStartsWith_spec {root : Node} (h : Rooted docs root) (s : Str) :
    ∃ result root', findStartsWith docs root s = some (result, root') ∧ Rooted docs root' ∧
      (Right docs (.findStartsWith s) result ↔ Meets docs root (.findStartsWith s)) := by
  cases s with
  | nil =>
    have hv := h.inside.notVirtual
    refine ⟨startsWithResult (some root), root, rfl, h,
      startsWith_right_iff (Or.inl ⟨fun _ _ => hv, fun k => ?_⟩)⟩
    rw [startsWithResult, if_neg (fun h => by rw [hv] at h; cases h.1), List.mem_toFinset,
      h.inside.mem_collect]
  | cons c rest =>
    obtain ⟨r, root', cache', h1, h2, h3⟩ := find_root true h c rest
    refine ⟨startsWithResult r, root', ?_, h2, startsWith_right_iff (startsWithResult_spec h3)⟩
    rw [findStartsWith, h1]
    cases r <;> rfl

/-- **A query** returns, leaves the trie as it should be, and is right exactly if it meets the
condition. -/
theorem call_spec {root : Node} (h : Rooted docs root) (call : Call) :
    ∃ result root', call.run docs root = some (result, root') ∧ Rooted docs root' ∧
      (Right docs call result ↔ Meets docs root call) := by
  cases call with
  | findEq s => exact findEq_spec h s
  | findStartsWith s => exact findStartsWith_spec h s
  | findNotEq s =>
    obtain ⟨result, root', h1, h2, -⟩ := findEq_spec h s
    exact ⟨_, root', by rw [Call.run, findNotEq, h1]; rfl, h2, Iff.rfl⟩
  | findLex s t =>
    obtain ⟨found, root', cache', h1, h2⟩ := findLex_root h s t
    exact ⟨_, root', by rw [Call.run, findLex, h1]; rfl, h2, Iff.rfl⟩

/-! ### Filling -/

/-- How the trie is filled: step by step with the documents `ks`, or at once from ranges. -/
inductive Filling where
  | steps (ks : List ℕ)
  | full (ranges : List ℕ)

namespace Filling

def documents : Filling → List ℕ
  | steps ks => ks
  | full ranges => expand ranges

def run (docs : Documents) : Filling → Option Node
  | steps ks => initializeSteps docs ks
  | full ranges => initializeFull docs ranges

end Filling

/-- The trie is filled with the documents that have a string. -/
def Lists (docs : Documents) (filling : Filling) : Prop :=
  ∀ k, k ∈ filling.documents ↔ (docs.string k).isSome

/-- **The condition on the values**: none is empty, and for a full initialisation they do not all
begin with the same character. -/
structure Fits (docs : Documents) (filling : Filling) : Prop where
  nonempty : ∀ k v, docs.string k = some v → cString v ≠ []
  apart : ∀ ranges, filling = .full ranges → (∃ k, (docs.string k).isSome) →
    ∀ c, ∃ k v, docs.string k = some v ∧ v.head? ≠ some c

theorem initializeSteps_eq (docs : Documents) : ∀ (ks : List ℕ) (root : Node),
    ks.foldlM (fun root k => initializeByStep root (docs.getString k) k) root =
      (addValues 0 (ks.map fun k => (k, docs.getString k)) root.children).map fun children =>
        { root with children := children }
  | [], root => by
    cases root
    rfl
  | k :: ks, root => by
    rw [List.foldlM_cons, List.map_cons, addValues, initializeByStep]
    cases addValue root.children (docs.getString k) 0 k with
    | none => rfl
    | some children => exact initializeSteps_eq docs ks { root with children := children }

theorem addValues_throws {docs : Documents} : ∀ {ks : List ℕ} {children : List Node},
    (∃ k ∈ ks, docs.getString k = []) →
    addValues 0 (ks.map fun k => (k, docs.getString k)) children = none
  | [], _, ⟨_, hk, _⟩ => by cases hk
  | j :: ks, children, ⟨k, hk, hv⟩ => by
    rw [List.map_cons, addValues]
    rcases List.mem_cons.mp hk with rfl | hk
    · rw [hv]; rfl
    · cases addValue children (docs.getString j) 0 j with
      | none => rfl
      | some children => exact addValues_throws ⟨k, hk, hv⟩

/-- **An empty value** stops the filling. -/
theorem fill_throws {filling : Filling} (hl : Lists docs filling) {k : ℕ} {v : Str}
    (hv : docs.string k = some v) (he : cString v = []) : filling.run docs = none := by
  have hmem : k ∈ filling.documents := (hl k).mpr (by rw [hv]; rfl)
  have hget : docs.getString k = [] := by rw [Documents.getString, hv]; exact he
  cases filling with
  | steps ks =>
    rw [Filling.run, initializeSteps, initializeSteps_eq]
    have : addValues 0 (ks.map fun k => (k, docs.getString k)) [] = none :=
      addValues_throws ⟨k, hmem, hget⟩
    exact congrArg (Option.map _) this
  | full ranges =>
    have hne : ranges.length ≠ 0 := fun h => by
      rw [List.length_eq_zero_iff] at h
      rw [h] at hmem
      cases hmem
    have hthrow : addValues 0 ((expand ranges).map fun k => (k, docs.getString k)) [] = none :=
      addValues_throws ⟨k, hmem, hget⟩
    rw [Filling.run, initializeFull, if_neg hne, hthrow]
    rfl

/-- The values sorted in at the root. -/
theorem Fits.sorted {filling : Filling} (hf : Fits docs filling) (hl : Lists docs filling) :
    ∃ children, addValues 0 (filling.documents.map fun k => (k, docs.getString k)) [] =
        some children ∧ Sorted (values docs) [] filling.documents children ∧
      ∀ k, k ∈ filling.documents ↔ Beyond (values docs) [] k := by
  have hdocs : ∀ k, k ∈ filling.documents ↔ Beyond (values docs) [] k := fun k => by
    rw [hl k, Option.isSome_iff_exists]
    constructor
    · rintro ⟨v, hv⟩
      have hval : values docs k = some (cString v) := by rw [values, hv]; rfl
      refine (below_iff.mp ⟨_, hval, List.nil_prefix⟩).resolve_left fun ha => ?_
      exact hf.nonempty k v hv (Option.some.inj (hval.symm.trans ha))
    · rintro ⟨c, hc⟩
      obtain ⟨v, hv, -⟩ := below_iff_string.mp hc
      exact ⟨v, hv⟩
  obtain ⟨children, h1, h2⟩ := addValues_sorted (fun k hk => (hdocs k).mp hk)
    (sorted_nil (P := []))
  exact ⟨children, h1, by simpa using h2, hdocs⟩

theorem rooted_of_sorted {ks : List ℕ} {children : List Node}
    (h : Sorted (values docs) [] ks children) (hd : ∀ k, k ∈ ks ↔ Beyond (values docs) [] k)
    (he : ∀ k, ¬ At (values docs) [] k) :
    Rooted docs { Node.root with isVirtual := false, children := children } := by
  refine ⟨rfl, rfl, fun k => iff_of_false (by simp [Node.root]) (he k), rfl, h.heads,
    fun m hm => (h.holds m hm).wf hd, fun k d hk => h.cover k ((hd k).mpr ⟨d, hk⟩) d hk⟩

theorem head_of_cString {v : Str} {c : UInt8} {t : Str} (h : c :: t <+: cString v) :
    v.head? = some c := by
  obtain ⟨u, hu⟩ := h.trans (cString_initial v)
  rw [← hu]
  rfl

/-- The filled trie: the values sorted in at the root. -/
theorem fill_sorted {filling : Filling} (hl : Lists docs filling) (hf : Fits docs filling) :
    ∃ children, filling.run docs =
        some { Node.root with isVirtual := false, children := children } ∧
      Sorted (values docs) [] filling.documents children ∧
      ∀ k, k ∈ filling.documents ↔ Beyond (values docs) [] k := by
  obtain ⟨children, hadd, hsorted, hdocs⟩ := hf.sorted hl
  cases filling with
  | steps ks =>
    refine ⟨children, ?_, hsorted, hdocs⟩
    rw [Filling.run, initializeSteps, initializeSteps_eq]
    exact congrArg (Option.map _) hadd
  | full ranges =>
    rw [Filling.run, initializeFull]
    split_ifs with hne
    · have hempty : (Filling.full ranges).documents = [] := by
        rw [Filling.documents, List.length_eq_zero_iff.mp hne]
        rfl
      refine ⟨[], rfl, ?_, hdocs⟩
      rw [hempty]
      exact sorted_nil
    · have hadd' : addValues 0 ((expand ranges).map fun k => (k, docs.getString k)) [] =
          some children := hadd
      rw [hadd', Option.bind_some]
      split
      · -- a single child: all values begin with its character
        rename_i child
        exfalso
        obtain ⟨k₀, hk₀, -⟩ := hsorted.inhabited child (by simp)
        obtain ⟨k, v, hv, hhead⟩ := hf.apart ranges rfl ⟨k₀, (hl k₀).mp hk₀⟩ (child.chars.headD 0)
        have hk : k ∈ (Filling.full ranges).documents := (hl k).mpr (by rw [hv]; rfl)
        obtain ⟨d, hd⟩ := (hdocs k).mp hk
        obtain ⟨m, hm, hmd⟩ := hsorted.cover k hk d hd
        rw [List.mem_singleton.mp hm] at hmd
        obtain ⟨w, hw, hp⟩ := below_iff_string.mp hd
        obtain rfl := Option.some.inj (hv.symm.trans hw)
        rw [headD_eq hmd] at hhead
        exact hhead (head_of_cString hp)
      · exact ⟨children, rfl, hsorted, hdocs⟩

/-- **The filled trie.** -/
theorem fill_rooted {filling : Filling} (hl : Lists docs filling) (hf : Fits docs filling) :
    ∃ root, filling.run docs = some root ∧ Rooted docs root := by
  obtain ⟨children, hrun, hsorted, hdocs⟩ := fill_sorted hl hf
  refine ⟨_, hrun, rooted_of_sorted hsorted hdocs fun k hk => ?_⟩
  obtain ⟨v, hv, he⟩ := at_iff.mp hk
  exact hf.nonempty k v hv he

/-! ### Runs -/

def Step (docs : Documents) (call : Call) (root root' : Node) : Prop :=
  ∃ result, call.run docs root = some (result, root')

/-- The query gets the right answer from this trie. -/
def RightAt (docs : Documents) (root : Node) (call : Call) : Prop :=
  ∃ result root', call.run docs root = some (result, root') ∧ Right docs call result

/-- **Every query of a run gets the right answer exactly if every query meets the condition**, for a
trie filled with values that fit. -/
theorem answers_right_iff {filling : Filling} (hl : Lists docs filling) (hf : Fits docs filling) :
    ∃ root, filling.run docs = some root ∧ ∀ (past : List (Node × Call)) (trie : Node),
      Run (· = root) (Step docs) past trie →
      ((∀ p ∈ past, RightAt docs p.1 p.2) ↔ ∀ p ∈ past, Meets docs p.1 p.2) := by
  obtain ⟨root, hroot, hrooted⟩ := fill_rooted hl hf
  refine ⟨root, hroot, fun past trie hrun => hrun.each_iff (Rooted docs) _ _
    (fun s (hs : s = root) => hs ▸ hrooted) (fun call s t hs _ hst => ?_) fun call s hs => ?_⟩
  · obtain ⟨result, hst⟩ := hst
    obtain ⟨result', s', h1, h2, -⟩ := call_spec hs call
    have := hst.symm.trans h1
    simp only [Option.some.injEq, Prod.mk.injEq] at this
    exact this.2 ▸ h2
  · obtain ⟨result, s', h1, -, h3⟩ := call_spec hs call
    rw [← h3]
    constructor
    · rintro ⟨result', s'', h1', hr⟩
      have := h1.symm.trans h1'
      simp only [Option.some.injEq, Prod.mk.injEq] at this
      exact this.1 ▸ hr
    · exact fun hr => ⟨result, s', h1, hr⟩

/-- The documents `ab` and `b`. -/
def twoDocs : Documents :=
  ⟨2, fun k => if k = 0 then some [97, 98] else if k = 1 then some [98] else none⟩

/-- The document `ab` alone. -/
def oneDoc : Documents := ⟨1, fun k => if k = 0 then some [97, 98] else none⟩

theorem twoDocs_answers_right_iff :
    ∃ root, (Filling.steps [0, 1]).run twoDocs = some root ∧ ∀ (past : List (Node × Call))
      (trie : Node), Run (· = root) (Step twoDocs) past trie →
      ((∀ p ∈ past, RightAt twoDocs p.1 p.2) ↔ ∀ p ∈ past, Meets twoDocs p.1 p.2) := by
  refine answers_right_iff (fun k => ?_) ⟨fun k v hv => ?_, fun ranges h => by cases h⟩
  · simp only [Filling.documents, twoDocs]
    split_ifs <;> simp_all
  · simp only [twoDocs] at hv
    split_ifs at hv <;> cases hv <;> decide

/-- After `findEq "ab"`, `findEq "a"` is answered with the document `ab`. -/
theorem findEq_answers_longer :
    ¬ ∀ root, (Filling.steps [0]).run oneDoc = some root → ∀ (past : List (Node × Call))
      (trie : Node), Run (· = root) (Step oneDoc) past trie → ∀ p ∈ past, RightAt oneDoc p.1 p.2 := by
  intro h
  have hab : ∃ root searched, (Filling.steps [0]).run oneDoc = some root ∧
      Call.run oneDoc root (.findEq [97, 98]) = some ({0}, searched) ∧
      Call.run oneDoc searched (.findEq [97]) = some ({0}, searched) := ⟨_, _, rfl, rfl, rfl⟩
  obtain ⟨root, searched, hroot, hab, ha⟩ := hab
  have hrun : Run (· = root) (Step oneDoc)
      [(searched, .findEq [97]), (root, .findEq [97, 98])] searched :=
    .step (.step (.start rfl) ⟨_, hab⟩) ⟨_, ha⟩
  obtain ⟨result, root', hr, hright⟩ := h root hroot _ _ hrun _ List.mem_cons_self
  obtain rfl : result = {0} := by
    have := hr.symm.trans ha
    simp only [Option.some.injEq, Prod.mk.injEq] at this
    exact this.1
  have h0 := (hright 0).mp (by simp)
  simp [oneDoc] at h0

end Joda.Index.TrieRuns
