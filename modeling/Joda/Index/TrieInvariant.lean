import Joda.Index.Trie
import Mathlib.Algebra.Order.BigOperators.Group.List
import Mathlib.Algebra.Order.Group.Nat
import Mathlib.Data.List.GetD
import Mathlib.Data.List.TakeWhile

/-! # What a node of the trie holds

`Wf val base c n`: the node `n` is reached by the character `c` from the path `base` and holds the
documents whose value goes on from there, for an assignment `val` of values. A virtual node lists
them; a read node at the path `base ++ c :: cs` lists those whose value is this path and has a child
for every next character. Extraction makes the one out of the other (`extract_wf`), whatever it
takes from the cache. -/

namespace Joda.Index.TrieInvariant

open Joda.Index.Trie

variable {val : ℕ → Option Str}

/-! ### Values on a path -/

/-- The value of the document is the path. -/
def At (val : ℕ → Option Str) (P : Str) (k : ℕ) : Prop := val k = some P

/-- The value of the document begins with the path. -/
def Below (val : ℕ → Option Str) (P : Str) (k : ℕ) : Prop := ∃ v, val k = some v ∧ P <+: v

/-- The value of the document goes on after the path. -/
def Beyond (val : ℕ → Option Str) (P : Str) (k : ℕ) : Prop := ∃ c, Below val (P ++ [c]) k

theorem below_of_at {P : Str} {k : ℕ} (h : At val P k) : Below val P k := ⟨P, h, List.prefix_rfl⟩

theorem Below.mono {P Q : Str} {k : ℕ} (h : Below val Q k) (hp : P <+: Q) : Below val P k := by
  obtain ⟨v, hv, hq⟩ := h
  exact ⟨v, hv, hp.trans hq⟩

theorem Beyond.below {P : Str} {k : ℕ} (h : Beyond val P k) : Below val P k := by
  obtain ⟨c, hc⟩ := h
  exact hc.mono (List.prefix_append _ _)

theorem below_iff {P : Str} {k : ℕ} : Below val P k ↔ At val P k ∨ Beyond val P k := by
  constructor
  · rintro ⟨v, hv, t, rfl⟩
    cases t with
    | nil => exact Or.inl (by simpa [At] using hv)
    | cons c t => exact Or.inr ⟨c, _, hv, t, by simp⟩
  · rintro (h | h)
    · exact below_of_at h
    · exact h.below

theorem Beyond.length_lt {P v : Str} {k : ℕ} (h : Beyond val P k) (hv : val k = some v) :
    P.length < v.length := by
  obtain ⟨c, w, hw, hp⟩ := h
  obtain rfl := Option.some.inj (hv.symm.trans hw)
  have := hp.length_le
  simp only [List.length_append, List.length_singleton] at this
  omega

theorem At.not_beyond {P : Str} {k : ℕ} (h : At val P k) : ¬ Beyond val P k := fun hb =>
  lt_irrefl _ (hb.length_lt h)

theorem At.not_below {P Q : Str} {k : ℕ} (h : At val P k) (hlt : P.length < Q.length) :
    ¬ Below val Q k := by
  rintro ⟨v, hv, hp⟩
  obtain rfl := Option.some.inj (Eq.trans (Eq.symm h) hv)
  have := hp.length_le
  omega

theorem Beyond.mono {P Q : Str} {k : ℕ} (h : Beyond val Q k) (hp : P <+: Q) : Beyond val P k := by
  obtain ⟨t, rfl⟩ := hp
  obtain ⟨c, hc⟩ := h
  cases t with
  | nil => exact ⟨c, by simpa using hc⟩
  | cons d t => exact ⟨d, hc.mono (by simp [List.append_assoc])⟩

theorem below_unique {P : Str} {c d : UInt8} {k : ℕ} (h : Below val (P ++ [c]) k)
    (h' : Below val (P ++ [d]) k) : c = d := by
  obtain ⟨v, hv, t, rfl⟩ := h
  obtain ⟨w, hw, t', h⟩ := h'
  obtain rfl := Option.some.inj (hv.symm.trans hw)
  simp only [List.append_assoc, List.append_cancel_left_eq, List.cons_append, List.nil_append,
    List.cons.injEq] at h
  exact h.1.symm

/-! ### Nodes -/

/-- **A node that holds its documents.** -/
inductive Wf (val : ℕ → Option Str) : Str → UInt8 → Node → Prop
  | unread {base : Str} {c : UInt8} {exact start : List ℕ}
      (exact_iff : ∀ k, k ∈ exact ↔ At val (base ++ [c]) k)
      (start_iff : ∀ k, k ∈ start ↔ Beyond val (base ++ [c]) k) :
      Wf val base c ⟨true, base.length + 1, [c], exact, start, []⟩
  | read {base cs : Str} {c : UInt8} {depth : ℕ} {exact : List ℕ} {children : List Node}
      (exact_iff : ∀ k, k ∈ exact ↔ At val (base ++ c :: cs) k)
      (through : ∀ k, Below val (base ++ [c]) k → Below val (base ++ c :: cs) k)
      (nonzero : ∀ x ∈ cs, x ≠ 0)
      (heads : (children.map fun n => n.chars.head?).Nodup)
      (wf : ∀ n ∈ children, Wf val (base ++ c :: cs) (n.chars.headD 0) n)
      (cover : ∀ k d, Below val (base ++ c :: cs ++ [d]) k →
        ∃ n ∈ children, n.chars.head? = some d) :
      Wf val base c ⟨false, depth, c :: cs, exact, [], children⟩

/-- What a read node, or the root, at the path `P` holds. -/
structure Inside (val : ℕ → Option Str) (P : Str) (n : Node) : Prop where
  notVirtual : n.isVirtual = false
  exact_iff : ∀ k, k ∈ n.exactMatchingDocs ↔ At val P k
  start : n.startMatchingDocs = []
  heads : (n.children.map fun n => n.chars.head?).Nodup
  wf : ∀ m ∈ n.children, Wf val P (m.chars.headD 0) m
  cover : ∀ k d, Below val (P ++ [d]) k → ∃ m ∈ n.children, m.chars.head? = some d

theorem Wf.head {base : Str} {c : UInt8} {n : Node} (h : Wf val base c n) :
    n.chars.head? = some c := by
  cases h <;> rfl

theorem Wf.headD {base : Str} {c : UInt8} {n : Node} (h : Wf val base c n) :
    n.chars.headD 0 = c := by
  cases h <;> rfl

/-- A node is virtual, or it is read. -/
theorem wf_iff {base : Str} {c : UInt8} {n : Node} : Wf val base c n ↔
    (n = ⟨true, base.length + 1, [c], n.exactMatchingDocs, n.startMatchingDocs, []⟩ ∧
      (∀ k, k ∈ n.exactMatchingDocs ↔ At val (base ++ [c]) k) ∧
      ∀ k, k ∈ n.startMatchingDocs ↔ Beyond val (base ++ [c]) k) ∨
    ∃ cs, n.chars = c :: cs ∧ (∀ k, Below val (base ++ [c]) k → Below val (base ++ c :: cs) k) ∧
      (∀ x ∈ cs, x ≠ 0) ∧ Inside val (base ++ c :: cs) n := by
  constructor
  · intro h
    cases h with
    | unread he hs => exact Or.inl ⟨rfl, he, hs⟩
    | @read _ cs _ depth exact children he ht hz hh hw hc =>
      exact Or.inr ⟨cs, rfl, ht, hz, ⟨rfl, he, rfl, hh, hw, hc⟩⟩
  · rintro (⟨hn, he, hs⟩ | ⟨cs, hcs, ht, hz, hi⟩)
    · rw [hn]
      exact .unread he hs
    · obtain ⟨v, depth, chars, exact, start, children⟩ := n
      obtain ⟨h1, h2, h3, h4, h5, h6⟩ := hi
      obtain rfl : v = false := h1
      obtain rfl : chars = c :: cs := hcs
      obtain rfl : start = [] := h3
      exact .read h2 ht hz h4 h5 h6

/-! ### The documents below a node -/

theorem mem_collectAll {k : ℕ} : ∀ {ns : List Node},
    k ∈ collectAll ns ↔ ∃ n ∈ ns, k ∈ collectDocuments n
  | [] => by simp [collectAll]
  | n :: ns => by simp [collectAll, mem_collectAll]

theorem headD_eq {l : Str} {d : UInt8} (h : l.head? = some d) : l.headD 0 = d := by
  cases l with
  | nil => cases h
  | cons c cs => exact Option.some.inj h

/-- The children of a path hold the documents whose value goes on after it. -/
theorem mem_collect_children {P : Str} {children : List Node} {k : ℕ}
    (hmem : ∀ n ∈ children, (k ∈ collectDocuments n ↔ Below val (P ++ [n.chars.headD 0]) k))
    (hcover : ∀ d, Below val (P ++ [d]) k → ∃ n ∈ children, n.chars.head? = some d) :
    k ∈ collectAll children ↔ Beyond val P k := by
  rw [mem_collectAll]
  constructor
  · rintro ⟨n, hn, hk⟩
    exact ⟨_, (hmem n hn).mp hk⟩
  · rintro ⟨d, hd⟩
    obtain ⟨n, hn, hnd⟩ := hcover d hd
    refine ⟨n, hn, (hmem n hn).mpr ?_⟩
    rw [headD_eq hnd]
    exact hd

/-- **All documents of a node**, by induction on the trie. -/
theorem mem_collectDocuments {base : Str} {c : UInt8} {n : Node} (h : Wf val base c n) (k : ℕ) :
    k ∈ collectDocuments n ↔ Below val (base ++ [c]) k := by
  induction h with
  | @unread base c exact start he hs =>
    rw [below_iff, ← he, ← hs, collectDocuments]
    cases start <;> simp [collectAll]
  | @read base cs c depth exact children he ht hz hh hw hc ih =>
    have hbelow : Below val (base ++ [c]) k ↔ Below val (base ++ c :: cs) k :=
      ⟨ht k, fun h => h.mono (by simp)⟩
    rw [hbelow, below_iff, ← he, collectDocuments, List.length_nil, if_pos rfl, List.mem_append,
      mem_collect_children ih (hc k)]

theorem Inside.mem_collect {P : Str} {n : Node} (h : Inside val P n) (k : ℕ) :
    k ∈ collectDocuments n ↔ Below val P k := by
  obtain ⟨v, depth, chars, exact, start, children⟩ := n
  obtain rfl : start = [] := h.start
  rw [below_iff, ← h.exact_iff, collectDocuments, List.length_nil, if_pos rfl, List.mem_append,
    mem_collect_children (fun m hm => mem_collectDocuments (h.wf m hm) k) (h.cover k)]

/-! ### Sorting values in -/

theorem getChild_some {c : UInt8} : ∀ {ns before after : List Node} {n : Node},
    getChild c ns = some (before, n, after) → ns = before ++ n :: after ∧ n.chars.head? = some c
  | [], _, _, _, h => by cases h
  | m :: ms, before, after, n, h => by
    rw [getChild] at h
    split_ifs at h with hm
    · simp only [Option.some.injEq, Prod.mk.injEq] at h
      obtain ⟨rfl, rfl, rfl⟩ := h
      exact ⟨rfl, by simpa [Node.startsWith] using hm⟩
    · obtain ⟨⟨b, n', a⟩, h1, h2⟩ := Option.map_eq_some_iff.mp h
      simp only [Prod.mk.injEq] at h2
      obtain ⟨rfl, rfl, rfl⟩ := h2
      obtain ⟨rfl, hn⟩ := getChild_some h1
      exact ⟨rfl, hn⟩

theorem getChild_none {c : UInt8} : ∀ {ns : List Node}, getChild c ns = none →
    ∀ n ∈ ns, n.chars.head? ≠ some c
  | [], _, n, hn => by cases hn
  | m :: ms, h, n, hn => by
    rw [getChild] at h
    split_ifs at h with hm
    rw [Option.map_eq_none_iff] at h
    rcases List.mem_cons.mp hn with rfl | hn
    · simpa [Node.startsWith] using hm
    · exact getChild_none h n hn

/-- The child for `c` at the path `P` when the documents `done` are sorted in. -/
structure Holds (val : ℕ → Option Str) (P : Str) (done : List ℕ) (c : UInt8) (n : Node) : Prop where
  shape : n = ⟨true, P.length + 1, [c], n.exactMatchingDocs, n.startMatchingDocs, []⟩
  exact_iff : ∀ k, k ∈ n.exactMatchingDocs ↔ k ∈ done ∧ At val (P ++ [c]) k
  start_iff : ∀ k, k ∈ n.startMatchingDocs ↔ k ∈ done ∧ Beyond val (P ++ [c]) k

/-- The children at the path `P` when the documents `done` are sorted in. -/
structure Sorted (val : ℕ → Option Str) (P : Str) (done : List ℕ) (children : List Node) : Prop where
  heads : (children.map fun n => n.chars.head?).Nodup
  holds : ∀ n ∈ children, Holds val P done (n.chars.headD 0) n
  inhabited : ∀ n ∈ children, ∃ k ∈ done, Below val (P ++ [n.chars.headD 0]) k
  cover : ∀ k ∈ done, ∀ d, Below val (P ++ [d]) k → ∃ n ∈ children, n.chars.head? = some d

theorem Holds.head {P : Str} {done : List ℕ} {c : UInt8} {n : Node} (h : Holds val P done c n) :
    n.chars = [c] := by rw [h.shape]

theorem Holds.other {P : Str} {done : List ℕ} {c : UInt8} {n : Node} {k : ℕ}
    (h : Holds val P done c n) (hk : ¬ Below val (P ++ [c]) k) : Holds val P (done ++ [k]) c n := by
  refine ⟨h.shape, fun j => ?_, fun j => ?_⟩
  · rw [h.exact_iff, List.mem_append, List.mem_singleton, or_and_right]
    refine (or_iff_left ?_).symm
    rintro ⟨rfl, hj⟩
    exact hk (below_of_at hj)
  · rw [h.start_iff, List.mem_append, List.mem_singleton, or_and_right]
    refine (or_iff_left ?_).symm
    rintro ⟨rfl, hj⟩
    exact hk hj.below

theorem length_eq_iff {P v : Str} {c : UInt8} {k : ℕ} (hv : val k = some v)
    (hk : Below val (P ++ [c]) k) : v.length = P.length + 1 ↔ At val (P ++ [c]) k := by
  constructor
  · intro hl
    rcases below_iff.mp hk with h | h
    · exact h
    · have := h.length_lt hv
      simp only [List.length_append, List.length_singleton] at this
      omega
  · intro h
    obtain rfl := Option.some.inj (hv.symm.trans h)
    simp

theorem Holds.add {P v : Str} {done : List ℕ} {c : UInt8} {n : Node} {k : ℕ}
    (h : Holds val P done c n) (hv : val k = some v) (hk : Below val (P ++ [c]) k) :
    Holds val P (done ++ [k]) c (n.addDoc (v.length == P.length + 1) k) := by
  have hlen := length_eq_iff hv hk
  by_cases hat : At val (P ++ [c]) k
  · have hl : (v.length == P.length + 1) = true := by simpa using hlen.mpr hat
    rw [hl]
    refine ⟨by rw [h.shape]; rfl, fun j => ?_, fun j => ?_⟩
    · simp only [Node.addDoc, if_true, List.mem_append, List.mem_singleton, h.exact_iff, or_and_right]
      refine or_congr Iff.rfl ⟨?_, And.left⟩
      rintro rfl
      exact ⟨rfl, hat⟩
    · simp only [Node.addDoc, if_true, h.start_iff, List.mem_append, List.mem_singleton, or_and_right]
      refine (or_iff_left ?_).symm
      rintro ⟨rfl, hj⟩
      exact hat.not_beyond hj
  · have hl : (v.length == P.length + 1) = false := by simpa using fun hl => hat (hlen.mp hl)
    have hb := (below_iff.mp hk).resolve_left hat
    rw [hl]
    refine ⟨by rw [h.shape]; rfl, fun j => ?_, fun j => ?_⟩
    · simp only [Node.addDoc, Bool.false_eq_true, if_false, h.exact_iff, List.mem_append,
        List.mem_singleton, or_and_right]
      refine (or_iff_left ?_).symm
      rintro ⟨rfl, hj⟩
      exact hat hj
    · simp only [Node.addDoc, Bool.false_eq_true, if_false, List.mem_append, List.mem_singleton,
        h.start_iff, or_and_right]
      refine or_congr Iff.rfl ⟨?_, And.left⟩
      rintro rfl
      exact ⟨rfl, hb⟩

theorem addDoc_chars (n : Node) (ends : Bool) (k : ℕ) : (n.addDoc ends k).chars = n.chars := by
  unfold Node.addDoc; split_ifs <;> rfl

theorem sorted_nil {P : Str} : Sorted val P [] [] :=
  ⟨by simp, by simp, by simp, by simp⟩

/-! A child put in the place of one that starts with the same character. -/

theorem mem_replace {m' n : Node} {before after : List Node} (h : n ∈ before ++ m' :: after) :
    n = m' ∨ n ∈ before ++ after := by
  simp only [List.mem_append, List.mem_cons] at h ⊢
  tauto

theorem mem_of_replace {m n : Node} {before after : List Node} (h : n ∈ before ++ after) :
    n ∈ before ++ m :: after := by
  simp only [List.mem_append, List.mem_cons] at h ⊢
  tauto

theorem heads_replace {m m' : Node} (h : m'.chars.head? = m.chars.head?) (before after : List Node) :
    (before ++ m' :: after).map (fun n => n.chars.head?) =
      (before ++ m :: after).map fun n => n.chars.head? := by
  simp [h]

theorem heads_other {m n : Node} {before after : List Node}
    (h : ((before ++ m :: after).map fun n => n.chars.head?).Nodup) (hn : n ∈ before ++ after) :
    n.chars.head? ≠ m.chars.head? := by
  intro he
  rw [List.map_append, List.map_cons, List.nodup_middle, List.nodup_cons, ← List.map_append] at h
  exact h.1 (he ▸ List.mem_map_of_mem hn)

theorem cover_replace {m m' : Node} (h : m'.chars.head? = m.chars.head?) {before after : List Node}
    {d : UInt8} (hd : ∃ n ∈ before ++ m :: after, n.chars.head? = some d) :
    ∃ n ∈ before ++ m' :: after, n.chars.head? = some d := by
  obtain ⟨n, hn, hnd⟩ := hd
  rcases mem_replace hn with rfl | hn
  · exact ⟨m', by simp, h.trans hnd⟩
  · exact ⟨n, mem_of_replace hn, hnd⟩

/-- **One value is sorted in.** -/
theorem addValue_sorted {P v : Str} {done : List ℕ} {children : List Node} {k : ℕ}
    (h : Sorted val P done children) (hv : val k = some v) (hk : Beyond val P k) :
    ∃ children', addValue children v P.length k = some children' ∧
      Sorted val P (done ++ [k]) children' := by
  obtain ⟨c, hc⟩ := hk
  have hget : v[P.length]? = some c := by
    obtain ⟨w, hw, t, ht⟩ := hc
    obtain rfl := Option.some.inj (hv.symm.trans hw)
    rw [← ht]
    simp
  have hother : ∀ n ∈ children, n.chars.head? ≠ some c →
      Holds val P (done ++ [k]) (n.chars.headD 0) n := fun n hn hne => by
    refine (h.holds n hn).other fun hb => hne ?_
    have := (h.holds n hn).head
    rw [below_unique hb hc] at this
    rw [this]; rfl
  rw [addValue, hget, Option.map_some]
  refine ⟨_, rfl, ?_⟩
  cases hchild : getChild c children with
  | none =>
    have hne := getChild_none hchild
    have hnew : Holds val P done c (Node.new c (P.length + 1)) := by
      have hno : ∀ j ∈ done, ¬ Below val (P ++ [c]) j := fun j hj hb => by
        obtain ⟨n, hn, hnc⟩ := h.cover j hj c hb
        exact hne n hn hnc
      refine ⟨rfl, fun j => ?_, fun j => ?_⟩
      · simp only [Node.new, List.not_mem_nil, false_iff, not_and]
        exact fun hj ha => hno j hj (below_of_at ha)
      · simp only [Node.new, List.not_mem_nil, false_iff, not_and]
        exact fun hj hb => hno j hj hb.below
    have hchars := addDoc_chars (Node.new c (P.length + 1)) (v.length == P.length + 1) k
    refine ⟨?_, ?_, ?_, ?_⟩
    · rw [List.map_append, List.map_singleton, hchars]
      refine List.nodup_append.mpr ⟨h.heads, by simp, fun a ha b hb he => ?_⟩
      obtain ⟨n, hn, rfl⟩ := List.mem_map.mp ha
      exact hne n hn (he.trans (List.mem_singleton.mp hb))
    · intro n hn
      rcases List.mem_append.mp hn with hn | hn
      · exact hother n hn (hne n hn)
      · rw [List.mem_singleton.mp hn, hchars]
        exact hnew.add hv hc
    · intro n hn
      rcases List.mem_append.mp hn with hn | hn
      · obtain ⟨j, hj, hb⟩ := h.inhabited n hn
        exact ⟨j, List.mem_append_left _ hj, hb⟩
      · rw [List.mem_singleton.mp hn, hchars]
        exact ⟨k, by simp, hc⟩
    · intro j hj d hd
      rcases List.mem_append.mp hj with hj | hj
      · obtain ⟨n, hn, hnd⟩ := h.cover j hj d hd
        exact ⟨n, List.mem_append_left _ hn, hnd⟩
      · rw [List.mem_singleton.mp hj] at hd
        rw [below_unique hd hc]
        exact ⟨_, List.mem_append_right _ (List.mem_singleton.mpr rfl), by rw [hchars]; rfl⟩
  | some r =>
    obtain ⟨before, child, after⟩ := r
    obtain ⟨rfl, hcc⟩ := getChild_some hchild
    have hchars := addDoc_chars child (v.length == P.length + 1) k
    have hmem : child ∈ before ++ child :: after := by simp
    have hhead : (child.addDoc (v.length == P.length + 1) k).chars.head? = child.chars.head? := by
      rw [hchars]
    have hne : ∀ n ∈ before ++ after, n.chars.head? ≠ some c := fun n hn =>
      hcc ▸ heads_other h.heads hn
    refine ⟨heads_replace hhead before after ▸ h.heads, ?_, ?_, ?_⟩
    · intro n hn
      rcases mem_replace hn with rfl | hn
      · rw [hchars, headD_eq hcc]
        have := h.holds child hmem
        rw [headD_eq hcc] at this
        exact this.add hv hc
      · exact hother n (mem_of_replace hn) (hne n hn)
    · intro n hn
      rcases mem_replace hn with rfl | hn
      · rw [hchars, headD_eq hcc]
        exact ⟨k, by simp, hc⟩
      · obtain ⟨j, hj, hb⟩ := h.inhabited n (mem_of_replace hn)
        exact ⟨j, List.mem_append_left _ hj, hb⟩
    · intro j hj d hd
      rcases List.mem_append.mp hj with hj | hj
      · exact cover_replace hhead (h.cover j hj d hd)
      · rw [List.mem_singleton.mp hj] at hd
        rw [below_unique hd hc]
        exact ⟨child.addDoc (v.length == P.length + 1) k, by simp, by rw [hchars]; exact hcc⟩

/-! ### Extraction -/

/-- The values as the trie reads them. -/
def values (docs : Documents) (k : ℕ) : Option Str := (docs.string k).map cString

theorem getString_of_values {docs : Documents} {k : ℕ} {v : Str} (h : values docs k = some v) :
    docs.getString k = v := by
  obtain ⟨w, hw, rfl⟩ := Option.map_eq_some_iff.mp h
  rw [Documents.getString, hw]; rfl

theorem nonzero_of_below {docs : Documents} {P : Str} {k : ℕ} (h : Below (values docs) P k) :
    ∀ x ∈ P, x ≠ 0 := by
  obtain ⟨v, hv, hp⟩ := h
  obtain ⟨w, -, rfl⟩ := Option.map_eq_some_iff.mp hv
  intro x hx
  simpa using List.mem_takeWhile_imp (hp.subset hx)

/-- The cache knows the values of these documents, if it is filled. -/
def CacheOk (docs : Documents) (cache : Cache) (scope : ℕ → Prop) : Prop :=
  cache.values = [] ∨ ∀ k, scope k → cached cache k = docs.getString k

theorem CacheOk.mono {docs : Documents} {cache : Cache} {scope scope' : ℕ → Prop}
    (h : CacheOk docs cache scope) (hs : ∀ k, scope' k → scope k) : CacheOk docs cache scope' :=
  h.imp id fun h k hk => h k (hs k hk)

/-- **The cache is transparent.** -/
theorem readValues_spec {docs : Documents} {start : List ℕ} {cache : Cache}
    (h : CacheOk docs cache (· ∈ start)) :
    (readValues docs start cache).1 = start.map (fun k => (k, docs.getString k)) ∧
      CacheOk docs (readValues docs start cache).2 (· ∈ start) := by
  unfold readValues
  split_ifs with h1 h2
  · refine ⟨rfl, Or.inr fun k hk => ?_⟩
    have hlt := List.idxOf_lt_length_of_mem hk
    show (start.map docs.getString).getD (if k ∈ start then start.idxOf k else 0) [] = _
    rw [if_pos hk, List.getD_eq_getElem _ _ (by simpa using hlt), List.getElem_map,
      List.getElem_idxOf]
  · refine ⟨List.map_congr_left fun k hk => ?_, h⟩
    rcases h with h | h
    · exact absurd (by rw [h]; rfl) h2
    · rw [h k hk]
  · exact ⟨rfl, h⟩

theorem addValues_sorted {docs : Documents} {P : Str} : ∀ {ks done : List ℕ} {children : List Node},
    (∀ k ∈ ks, Beyond (values docs) P k) → Sorted (values docs) P done children →
    ∃ children', addValues P.length (ks.map fun k => (k, docs.getString k)) children =
      some children' ∧ Sorted (values docs) P (done ++ ks) children'
  | [], done, children, _, h => ⟨children, rfl, by simpa using h⟩
  | k :: ks, done, children, hks, h => by
    obtain ⟨v, hv, -⟩ := (hks k List.mem_cons_self).below
    obtain ⟨ch, h1, h2⟩ := addValue_sorted h hv (hks k List.mem_cons_self)
    obtain ⟨ch', h3, h4⟩ := addValues_sorted (fun j hj => hks j (List.mem_cons_of_mem _ hj)) h2
    refine ⟨ch', ?_, by simpa using h4⟩
    rw [List.map_cons, addValues, getString_of_values hv, h1, Option.bind_some, h3]

/-- **What an extraction leaves**: the node has taken over the characters `cs`, which all values
below it share, and its children are those of the path it has now. -/
structure Extracted (val : ℕ → Option Str) (P cs : Str) (n : Node) : Prop where
  nonzero : ∀ x ∈ cs, x ≠ 0
  through : ∀ k, Below val P k → Below val (P ++ cs) k
  notVirtual : n.isVirtual = false
  exact_iff : ∀ k, k ∈ n.exactMatchingDocs ↔ At val (P ++ cs) k
  sorted : ∃ done, (∀ k, k ∈ done ↔ Beyond val (P ++ cs) k) ∧ Sorted val (P ++ cs) done n.children
  branches : n.exactMatchingDocs ≠ [] ∨ n.children.length ≠ 1

theorem extractFrom_spec {docs : Documents} : ∀ (fuel : ℕ) (P : Str) (node : Node) (cache : Cache),
    node.children = [] → (∀ k, k ∈ node.exactMatchingDocs ↔ At (values docs) P k) →
    (∀ k, k ∈ node.startMatchingDocs ↔ Beyond (values docs) P k) → 0 < fuel →
    (∀ k ∈ node.startMatchingDocs, (docs.getString k).length < P.length + fuel) →
    CacheOk docs cache (Beyond (values docs) P) →
    ∃ n cache' cs, extractFrom docs fuel P.length node cache = some (n, cache') ∧
      n.chars = node.chars ++ cs ∧ Extracted (values docs) P cs n ∧
      CacheOk docs cache' (Beyond (values docs) (P ++ cs)) := by
  intro fuel
  induction fuel with
  | zero => intro P node cache _ _ _ h; omega
  | succ fuel ih =>
    intro P node cache hch he hs _ hfuel hcache
    obtain ⟨hread, hcache'⟩ := readValues_spec (hcache.mono fun k hk => (hs k).mp hk)
    have hcacheP : CacheOk docs (readValues docs node.startMatchingDocs cache).2
        (Beyond (values docs) P) := hcache'.mono fun k hk => (hs k).mpr hk
    obtain ⟨children, hadd, hsorted⟩ :=
      addValues_sorted (fun k hk => (hs k).mp hk) (sorted_nil (P := P))
    rw [List.nil_append] at hsorted
    rw [extractFrom, hread, hch, hadd, Option.bind_some]
    split
    · rename_i child hexact
      have hc := hsorted.holds child (by simp)
      set c := child.chars.headD 0 with hcdef
      have hchars := hc.head
      obtain ⟨k₀, hk₀, hbk₀⟩ := hsorted.inhabited child (by simp)
      have hthrough : ∀ k, Below (values docs) P k → Below (values docs) (P ++ [c]) k := by
        intro k hk
        rcases below_iff.mp hk with hk | ⟨d, hd⟩
        · have := (he k).mpr hk
          rw [hexact] at this
          cases this
        · obtain ⟨n, hn, hnd⟩ := hsorted.cover k ((hs k).mpr ⟨d, hd⟩) d hd
          rw [List.mem_singleton.mp hn, hchars] at hnd
          obtain rfl : c = d := by simpa using hnd
          exact hd
      have hbeyond : ∀ k, Beyond (values docs) (P ++ [c]) k → k ∈ node.startMatchingDocs := fun k hk =>
        (hs k).mpr (hk.mono (List.prefix_append _ _))
      have hlen : ∀ k ∈ node.startMatchingDocs, Below (values docs) (P ++ [c]) k →
          0 < fuel ∧ (docs.getString k).length < (P ++ [c]).length + fuel := by
        intro k hk hb
        obtain ⟨v, hv, hp⟩ := hb
        have h1 := hfuel k hk
        have h2 := hp.length_le
        rw [getString_of_values hv] at h1 ⊢
        simp only [List.length_append, List.length_singleton] at h2 ⊢
        omega
      have hstart : ∀ k, k ∈ child.startMatchingDocs ↔ Beyond (values docs) (P ++ [c]) k := fun k =>
        (hc.start_iff k).trans (and_iff_right_of_imp (hbeyond k))
      have hexact' : ∀ k, k ∈ child.exactMatchingDocs ↔ At (values docs) (P ++ [c]) k := fun k =>
        (hc.exact_iff k).trans (and_iff_right_of_imp fun h => (hs k).mpr ⟨c, below_of_at h⟩)
      obtain ⟨n, cache', cs, h1, h2, h3, h4⟩ := ih (P ++ [c])
        { node with
          chars := node.chars ++ child.chars.take 1
          exactMatchingDocs := child.exactMatchingDocs
          startMatchingDocs := child.startMatchingDocs
          children := [] } (readValues docs node.startMatchingDocs cache).2 rfl hexact' hstart
        (hlen k₀ hk₀ hbk₀).1
        (fun k hk => (hlen k (hbeyond k ((hstart k).mp hk)) ((hstart k).mp hk).below).2)
        (hcacheP.mono fun k hk => hk.mono (List.prefix_append _ _))
      rw [List.length_append, List.length_singleton] at h1
      have hassoc : P ++ [c] ++ cs = P ++ c :: cs := by simp
      rw [hassoc] at h4
      refine ⟨n, cache', c :: cs, h1, ?_, ?_, h4⟩
      · rw [h2, hchars]; simp
      · obtain ⟨g1, g2, g3, g4, g5, g6⟩ := h3
        rw [hassoc] at g2 g4 g5
        refine ⟨fun x hx => ?_, fun k hk => g2 k (hthrough k hk), g3, g4, g5, g6⟩
        rcases List.mem_cons.mp hx with rfl | hx
        · exact nonzero_of_below hbk₀ _ (List.mem_append_right _ (List.mem_singleton.mpr rfl))
        · exact g1 x hx
    · rename_i hne
      refine ⟨_, _, [], rfl, by simp, ⟨by simp, by simp, rfl, by simpa using he, ?_, ?_⟩,
        by simpa using hcacheP⟩
      · exact ⟨node.startMatchingDocs, by simpa using hs, by simpa using hsorted⟩
      · by_contra hb
        push Not at hb
        obtain ⟨child, rfl⟩ := List.length_eq_one_iff.mp hb.2
        exact hne child rfl hb.1

theorem Holds.wf {P : Str} {done : List ℕ} {c : UInt8} {n : Node} (h : Holds val P done c n)
    (hd : ∀ k, k ∈ done ↔ Beyond val P k) : Wf val P c n := by
  rw [h.shape]
  refine .unread (fun k => ?_) fun k => ?_
  · exact (h.exact_iff k).trans (and_iff_right_of_imp fun ha => (hd k).mpr ⟨c, below_of_at ha⟩)
  · exact (h.start_iff k).trans
      (and_iff_right_of_imp fun hb => (hd k).mpr (hb.mono (List.prefix_append _ _)))

theorem Extracted.inside {P cs : Str} {n : Node} (h : Extracted val P cs n) :
    Inside val (P ++ cs) { n with startMatchingDocs := [] } := by
  obtain ⟨done, hd, hs⟩ := h.sorted
  exact ⟨h.notVirtual, h.exact_iff, rfl, hs.heads, fun m hm => (hs.holds m hm).wf hd,
    fun k d hk => hs.cover k ((hd k).mpr ⟨d, hk⟩) d hk⟩

/-- The children of a node that was just extracted: all virtual, none without documents, and not a
single one unless a value ends at the node. -/
structure Fresh (val : ℕ → Option Str) (P : Str) (n : Node) : Prop where
  unread : ∀ m ∈ n.children, m.isVirtual = true ∧ m.chars.length = 1
  inhabited : ∀ m ∈ n.children, ∃ k, Below val (P ++ [m.chars.headD 0]) k
  branches : n.exactMatchingDocs ≠ [] ∨ n.children.length ≠ 1

theorem Extracted.fresh {P cs : Str} {n : Node} (h : Extracted val P cs n) :
    Fresh val (P ++ cs) { n with startMatchingDocs := [] } := by
  obtain ⟨done, hd, hs⟩ := h.sorted
  refine ⟨fun m hm => ?_, fun m hm => ?_, h.branches⟩
  · have := (hs.holds m hm).shape
    rw [this]
    exact ⟨rfl, rfl⟩
  · obtain ⟨k, -, hk⟩ := hs.inhabited m hm
    exact ⟨k, hk⟩

/-- A node that was just extracted has documents outside any one child. -/
theorem Fresh.other {P : Str} {n child : Node} {before after : List Node}
    {c : UInt8} (h : Fresh val P n) (hi : Inside val P n) (hn : n.children = before ++ child :: after)
    (hc : child.chars.head? = some c) : ∃ k v, val k = some v ∧ P <+: v ∧ v ≠ P ++ [c] := by
  rcases h.branches with h1 | h1
  · obtain ⟨k, hk⟩ := List.exists_mem_of_ne_nil _ h1
    exact ⟨k, P, (hi.exact_iff k).mp hk, List.prefix_rfl, by simp⟩
  · obtain ⟨m, hm⟩ : ∃ m, m ∈ before ++ after := by
      rw [hn] at h1
      refine List.exists_mem_of_ne_nil _ fun he => h1 ?_
      have := congrArg List.length he
      simp only [List.length_append, List.length_cons, List.length_nil] at this ⊢
      omega
    have hmem : m ∈ n.children := by rw [hn]; exact mem_of_replace hm
    obtain ⟨k, v, hv, hp⟩ := h.inhabited m hmem
    refine ⟨k, v, hv, (List.prefix_append _ _).trans hp, ?_⟩
    rintro rfl
    have hheads := hi.heads
    rw [hn] at hheads
    have hne := heads_other hheads hm
    rw [hc, (hi.wf m hmem).head] at hne
    have : m.chars.headD 0 = c := by
      simpa using (List.prefix_append_right_inj P).mp hp
    exact hne (by rw [this])

theorem length_le_sum {docs : Documents} {ks : List ℕ} {k : ℕ} (hk : k ∈ ks) :
    (docs.getString k).length < enough docs ks := by
  have : (docs.getString k).length ≤ (ks.map fun k => (docs.getString k).length).sum :=
    List.le_sum_of_mem (List.mem_map.mpr ⟨k, hk, rfl⟩)
  unfold enough
  omega

/-- **A visit** reads the node; a node that was read stays as it is. -/
theorem visit_spec {docs : Documents} {base : Str} {c : UInt8} {n : Node} {cache : Cache}
    (h : Wf (values docs) base c n) (hcache : CacheOk docs cache (Beyond (values docs) (base ++ [c]))) :
    ∃ n' cache' cs, visit docs n cache = some (n', cache') ∧ n'.chars = c :: cs ∧
      (∀ x ∈ cs, x ≠ 0) ∧
      (∀ k, Below (values docs) (base ++ [c]) k → Below (values docs) (base ++ c :: cs) k) ∧
      Inside (values docs) (base ++ c :: cs) n' ∧
      CacheOk docs cache' (Beyond (values docs) (base ++ c :: cs)) ∧
      (n.isVirtual = false → n' = n) ∧
      (n.isVirtual = true → Fresh (values docs) (base ++ c :: cs) n') := by
  rcases wf_iff.mp h with ⟨hn, he, hs⟩ | ⟨cs, hchars, ht, hz, hi⟩
  · have hv : n.isVirtual = true := by rw [hn]
    have hch : n.children = [] := by rw [hn]
    have hchars : n.chars = [c] := by rw [hn]
    have hdepth : n.depth = (base ++ [c]).length := by rw [hn]; simp
    rw [visit, if_pos hv, extract]
    split_ifs with hstart
    · have hnil : n.startMatchingDocs = [] := List.length_eq_zero_iff.mp hstart
      refine ⟨_, cache, [], rfl, hchars, by simp, fun k hk => hk, ⟨rfl, he, rfl, ?_, ?_, ?_⟩, hcache,
        (fun h => by rw [hv] at h; cases h), fun _ => ⟨?_, ?_, ?_⟩⟩
      · simp [hch]
      · simp [hch]
      · intro k d hd
        have := (hs k).mpr ⟨d, hd⟩
        rw [hnil] at this
        cases this
      · simp [hch]
      · simp [hch]
      · right; simp [hch]
    · rw [hdepth]
      obtain ⟨n', cache', cs, h1, h2, h3, h4⟩ := extractFrom_spec (enough docs n.startMatchingDocs)
        (base ++ [c]) n cache hch he hs (Nat.succ_pos _)
        (fun k hk => lt_of_lt_of_le (length_le_sum hk) (Nat.le_add_left _ _)) hcache
      have hassoc : base ++ [c] ++ cs = base ++ c :: cs := by simp
      have hi := h3.inside
      have hf := h3.fresh
      rw [hassoc] at h4 hi hf
      rw [h1]
      refine ⟨{ n' with startMatchingDocs := [] }, cache', cs, rfl, ?_, h3.nonzero, ?_, hi, h4,
        (fun h => by rw [hv] at h; cases h), fun _ => hf⟩
      · rw [h2, hchars]; rfl
      · intro k hk
        rw [← hassoc]
        exact h3.through k hk
  · have hv : n.isVirtual = false := hi.notVirtual
    rw [visit, if_neg (by rw [hv]; simp)]
    exact ⟨n, cache, cs, rfl, hchars, hz, ht, hi, hcache.mono fun k hk => hk.mono (by simp),
      fun _ => rfl, fun h => by rw [hv] at h; cases h⟩

/-- A child is replaced by one that holds the same documents. -/
theorem Inside.replace {P : Str} {n child child' : Node} {before after : List Node} {c : UInt8}
    (h : Inside val P n) (hn : n.children = before ++ child :: after)
    (hc : child.chars.head? = some c) (hw : Wf val P c child') :
    Inside val P { n with children := before ++ child' :: after } := by
  have hhead : child'.chars.head? = child.chars.head? := hw.head.trans hc.symm
  refine ⟨h.notVirtual, h.exact_iff, h.start, ?_, ?_, ?_⟩
  · show ((before ++ child' :: after).map fun n => n.chars.head?).Nodup
    rw [heads_replace hhead, ← hn]
    exact h.heads
  · intro m hm
    rcases mem_replace hm with rfl | hm
    · rw [hw.headD]
      exact hw
    · exact h.wf m (by rw [hn]; exact mem_of_replace hm)
  · intro k d hd
    have := h.cover k d hd
    rw [hn] at this
    exact cover_replace hhead this

end Joda.Index.TrieInvariant
