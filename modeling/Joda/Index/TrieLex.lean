import Joda.Index.TrieRuns

/-! # Lexicographic searches

`findLex` walks down the trie and takes, on each side of the path of `cmpVal`, what is smaller or
greater. What it finds does not depend on the earlier queries: a node it visits is one where the values
end or branch (`Forks`). `LexMeets` is the condition under which it finds what it is to find: it never
goes on below a compressed node, nothing is left where the loop ends, and characters that are compared
are on the same side of 128. -/

namespace Joda.Index.TrieLex

open Joda.Index.Trie Joda.Index.TrieInvariant Joda.Index.TrieSearch Joda.Index.TrieRuns Joda.Lib.Runs

variable {docs : Documents} {val : ℕ → Option Str}

/-! ### The order of strings -/

theorem append_lt_append (P : Str) {a b : Str} : P ++ a < P ++ b ↔ a < b := by
  induction P with
  | nil => rfl
  | cons c P ih =>
    rw [List.cons_append, List.cons_append, List.cons_lt_cons_iff, ih]
    simp

/-- What goes on is greater. -/
theorem lt_of_goes_on (P : Str) (c : UInt8) (u : Str) : P < P ++ c :: u := by
  have : P ++ [] < P ++ c :: u := (append_lt_append P).mpr (List.nil_lt_cons c u)
  simpa using this

/-- The first different characters decide. -/
theorem lt_differ (P u w : Str) {x y : UInt8} (h : x ≠ y) : P ++ x :: u < P ++ y :: w ↔ x < y := by
  rw [append_lt_append, List.cons_lt_cons_iff]
  simp [h]

/-- On the same side of 128, signed characters are ordered as bytes are. -/
theorem charLess_iff {a b : UInt8} (h : a < 128 ↔ b < 128) : charLess a b = true ↔ a < b := by
  have hint : ∀ x : UInt8, x.toInt8.toInt = if x.toNat < 128 then (x.toNat : ℤ) else x.toNat - 256 :=
    fun x => by
      have h1 : x.toInt8.toInt = x.toBitVec.toInt := rfl
      have h2 : x.toBitVec.toNat = x.toNat := rfl
      rw [h1, BitVec.toInt_eq_toNat_cond, h2]
      split_ifs <;> omega
  have h128 : (128 : UInt8).toNat = 128 := rfl
  rw [UInt8.lt_iff_toNat_lt, UInt8.lt_iff_toNat_lt, h128] at h
  unfold charLess
  rw [decide_eq_true_eq, Int8.lt_iff_toInt_lt, UInt8.lt_iff_toNat_lt, hint, hint]
  have := a.toNat_lt
  have := b.toNat_lt
  split_ifs <;> omega

/-- A value compared with a text, in the order of `std::string`. -/
def Satisfies : ComparisonType → Str → Str → Prop
  | .lt, v, s => v < s
  | .lte, v, s => ¬ s < v
  | .gt, v, s => s < v
  | .gte, v, s => ¬ v < s

instance (t : ComparisonType) (v s : Str) : Decidable (Satisfies t v s) :=
  match t with
  | .lt => inferInstanceAs (Decidable (v < s))
  | .lte => inferInstanceAs (Decidable (¬ s < v))
  | .gt => inferInstanceAs (Decidable (s < v))
  | .gte => inferInstanceAs (Decidable (¬ v < s))

theorem isLess_or (t : ComparisonType) : t.isLess = true ∧ t.isGreater = false ∨
    t.isLess = false ∧ t.isGreater = true := by
  cases t <;> decide

theorem satisfies_self (t : ComparisonType) (s : Str) : Satisfies t s s ↔ t.orEqual = true := by
  cases t <;> simp [Satisfies, ComparisonType.orEqual]

theorem satisfies_of_lt {t : ComparisonType} {v s : Str} (h : v < s) :
    Satisfies t v s ↔ t.isLess = true := by
  have := List.lt_asymm h
  cases t <;> simp [Satisfies, ComparisonType.isLess, h, this]

theorem satisfies_of_gt {t : ComparisonType} {v s : Str} (h : s < v) :
    Satisfies t v s ↔ t.isGreater = true := by
  have := List.lt_asymm h
  cases t <;> simp [Satisfies, ComparisonType.isGreater, h, this]

/-- The comparison of two different characters, as `findLex` makes it. -/
def differs (t : ComparisonType) (x y : UInt8) : Bool :=
  t.isLess && charLess x y || t.isGreater && charLess y x

theorem satisfies_differ {t : ComparisonType} {x y : UInt8} (P u w : Str) (h : x ≠ y)
    (hside : x < 128 ↔ y < 128) :
    Satisfies t (P ++ x :: u) (P ++ y :: w) ↔ differs t x y = true := by
  have h1 := charLess_iff hside
  have h2 := charLess_iff hside.symm
  unfold differs
  rcases UInt8.lt_or_lt_of_ne h with hlt | hlt
  · rw [satisfies_of_lt ((lt_differ P u w h).mpr hlt), h1.mpr hlt]
    have hnot : charLess y x = false := by
      rw [← Bool.not_eq_true, h2]
      exact UInt8.lt_asymm hlt
    rw [hnot]
    simp
  · rw [satisfies_of_gt ((lt_differ P w u h.symm).mpr hlt), h2.mpr hlt]
    have hnot : charLess x y = false := by
      rw [← Bool.not_eq_true, h1]
      exact UInt8.lt_asymm hlt
    rw [hnot]
    simp

/-! ### Where values branch -/

/-- Values end here, or go on with different characters. -/
def Branches (val : ℕ → Option Str) (P : Str) : Prop :=
  (∃ k, At val P k) ∨ ∃ c d, c ≠ d ∧ (∃ k, Below val (P ++ [c]) k) ∧ ∃ k, Below val (P ++ [d]) k

/-- The path of a node that was extracted. -/
def NodePath (val : ℕ → Option Str) (P : Str) : Prop := P = [] ∨ Branches val P

/-- Inside the path that all values share, no values branch. -/
theorem not_branches {P Q : Str} {k : ℕ} (hk : Below val P k) (hQ : Q <+: P) (hne : Q ≠ P)
    (hall : ∀ k, Below val Q k → Below val P k) : ¬ Branches val Q := by
  have hlt : Q.length < P.length := by
    rcases Nat.lt_or_ge Q.length P.length with h | h
    · exact h
    · exact absurd (hQ.eq_of_length_le h) hne
  rintro (⟨j, hj⟩ | ⟨c, d, hcd, ⟨i, hi⟩, j, hj⟩)
  · exact hj.not_below hlt (hall j (below_of_at hj))
  · obtain ⟨t, rfl⟩ := hQ
    cases t with
    | nil => simp at hne
    | cons e t =>
      have hnext : ∀ x j, Below val (Q ++ [x]) j → x = e := fun x j hx =>
        below_unique hx ((hall j (hx.mono (List.prefix_append _ _))).mono (by simp))
      exact hcd ((hnext c i hi).trans (hnext d j hj).symm)

/-- **A node whose values branch**: below it, a node that was read branches if values go on there, and
none of its children is without values. -/
inductive Forks (val : ℕ → Option Str) : Str → UInt8 → Node → Prop
  | unread {base : Str} {c : UInt8} {n : Node} (h : n.isVirtual = true) : Forks val base c n
  | read {base cs : Str} {c : UInt8} {n : Node} (h : n.isVirtual = false) (chars : n.chars = c :: cs)
      (branches : (∃ k, Beyond val (base ++ c :: cs) k) → Branches val (base ++ c :: cs))
      (inhabited : ∀ m ∈ n.children, ∃ k, Below val (base ++ c :: cs ++ [m.chars.headD 0]) k)
      (children : ∀ m ∈ n.children, Forks val (base ++ c :: cs) (m.chars.headD 0) m) :
      Forks val base c n

/-- What a read node, or the root, at the path `P` shows of it. -/
structure ForksInside (val : ℕ → Option Str) (P : Str) (n : Node) : Prop where
  branches : (∃ k, Beyond val P k) → NodePath val P
  inhabited : ∀ m ∈ n.children, ∃ k, Below val (P ++ [m.chars.headD 0]) k
  children : ∀ m ∈ n.children, Forks val P (m.chars.headD 0) m

theorem ForksInside.replace {P : Str} {n child child' : Node} {before after : List Node} {c : UInt8}
    (h : ForksInside val P n) (hn : n.children = before ++ child :: after)
    (hc : child.chars.head? = some c) (hc' : child'.chars.head? = some c)
    (hf : Forks val P c child') :
    ForksInside val P { n with children := before ++ child' :: after } := by
  refine ⟨h.branches, fun m hm => ?_, fun m hm => ?_⟩
  · rcases mem_replace hm with rfl | hm
    · obtain ⟨k, hk⟩ := h.inhabited child (by rw [hn]; simp)
      rw [headD_eq hc] at hk
      rw [headD_eq hc']
      exact ⟨k, hk⟩
    · exact h.inhabited m (by rw [hn]; exact mem_of_replace hm)
  · rcases mem_replace hm with rfl | hm
    · rw [headD_eq hc']
      exact hf
    · exact h.children m (by rw [hn]; exact mem_of_replace hm)

theorem Forks.of_inside {base cs : Str} {c : UInt8} {n : Node}
    (h : ForksInside val (base ++ c :: cs) n) (hv : n.isVirtual = false) (hchars : n.chars = c :: cs) :
    Forks val base c n := by
  refine .read hv hchars (fun hk => ?_) h.inhabited h.children
  exact (h.branches hk).resolve_left (by simp)

/-- A node that was just extracted branches. -/
theorem forks_of_fresh {P : Str} {n : Node} (h : Fresh val P n) (hi : Inside val P n) :
    ForksInside val P n := by
  refine ⟨fun ⟨k, d, hk⟩ => Or.inr ?_, h.inhabited, fun m hm => .unread (h.unread m hm).1⟩
  obtain ⟨child, hchild, hd⟩ := hi.cover k d hk
  obtain ⟨before, after, hn⟩ := List.append_of_mem hchild
  obtain ⟨j, v, hv, hp, hne⟩ := h.other hi hn hd
  have hfirst : ∃ k, Below val (P ++ [d]) k := ⟨k, hk⟩
  rcases h.branches with he | hlen
  · obtain ⟨i, hi'⟩ := List.exists_mem_of_ne_nil _ he
    exact Or.inl ⟨i, (hi.exact_iff i).mp hi'⟩
  · -- a second child
    obtain ⟨m, hm⟩ : ∃ m, m ∈ before ++ after := by
      rw [hn] at hlen
      refine List.exists_mem_of_ne_nil _ fun he => hlen ?_
      have := congrArg List.length he
      simp only [List.length_append, List.length_cons, List.length_nil] at this ⊢
      omega
    have hmem : m ∈ n.children := by rw [hn]; exact mem_of_replace hm
    have hheads := hi.heads
    rw [hn] at hheads
    have hother := heads_other hheads hm
    rw [hd, (hi.wf m hmem).head] at hother
    refine Or.inr ⟨d, m.chars.headD 0, fun heq => hother (by rw [heq]), hfirst, h.inhabited m hmem⟩

/-- **A visit** leaves a node that branches. -/
theorem visit_forks {base : Str} {c : UInt8} {n n' : Node} {cache cache' : Cache}
    (hw : Wf (values docs) base c n) (hf : Forks (values docs) base c n)
    (hcache : CacheOk docs cache (Beyond (values docs) (base ++ [c])))
    (hvisit : visit docs n cache = some (n', cache')) :
    ∃ cs, n'.chars = c :: cs ∧ ForksInside (values docs) (base ++ c :: cs) n' := by
  obtain ⟨n₁, cache₁, cs, h1, hchars, -, -, hi, -, hsame, hfresh⟩ := visit_spec hw hcache
  obtain ⟨rfl, rfl⟩ : n₁ = n' ∧ cache₁ = cache' := by
    simpa using h1.symm.trans hvisit
  refine ⟨cs, hchars, ?_⟩
  cases hv : n.isVirtual with
  | true => exact forks_of_fresh (hfresh hv) hi
  | false =>
    obtain rfl := hsame hv
    cases hf with
    | unread h =>
      rw [hv] at h
      cases h
    | read h chars branches inhabited children =>
      rw [hchars, List.cons.injEq] at chars
      obtain ⟨-, rfl⟩ := chars
      exact ⟨fun hk => Or.inr (branches hk), inhabited, children⟩

/-! ### The condition -/

/-- A document of the answer, by the values as the trie reads them. -/
def Hit (val : ℕ → Option Str) (t : ComparisonType) (s : Str) (k : ℕ) : Prop :=
  ∃ v, val k = some v ∧ Satisfies t v s

/-- What is not looked at where the loop ends: the values `s`, those that go on after `s`, and for
`lt` and `gte` those that end one character before. -/
structure LastOk (val : ℕ → Option Str) (t : ComparisonType) (s : Str) : Prop where
  equal : t.orEqual = true → ∀ k, ¬ At val s k
  longer : t.isGreater = true → ∀ k, ¬ Beyond val s k
  shorter : t = .lt ∨ t = .gte → ∀ k, ¬ At val s.dropLast k

/-- **The condition on a lexicographic query** and the values. -/
structure LexMeets (val : ℕ → Option Str) (s : Str) (t : ComparisonType) : Prop where
  /-- Nothing goes on after a compressed node on the way. -/
  chain : ∀ P, P <+: s → NodePath val P → ¬ NodePath val P.dropLast → ∀ k, ¬ Beyond val P k
  /-- Nothing is left where the loop ends at a node that is not compressed. -/
  last : NodePath val s.dropLast → NodePath val s.dropLast.dropLast → LastOk val t s
  /-- Different characters are on the same side of 128. -/
  side : ∀ P x y, (∃ k, Below val (P ++ [x]) k) → P ++ [y] <+: s → x ≠ y → (x < 128 ↔ y < 128)
  /-- So is what follows `s` within a compressed node. -/
  ends : t.isLess = true → ¬ NodePath val s.dropLast → ∀ x, (∃ k, Below val (s ++ [x]) k) → x < 128

/-! ### One node -/

theorem hit_at {t : ComparisonType} {s P : Str} {k : ℕ} (h : At val P k) :
    Hit val t s k ↔ Satisfies t P s := by
  constructor
  · rintro ⟨v, hv, hs⟩
    obtain rfl := Option.some.inj (hv.symm.trans h)
    exact hs
  · exact fun hs => ⟨P, h, hs⟩

theorem hit_beyond {t : ComparisonType} {s : Str} {k : ℕ} (h : Beyond val s k) :
    Hit val t s k ↔ t.isGreater = true := by
  obtain ⟨x, v, hv, u, rfl⟩ := h
  have hgt : s < s ++ [x] ++ u := by
    rw [List.append_assoc]
    exact lt_of_goes_on s x u
  rw [← satisfies_of_gt hgt]
  exact hit_at hv

theorem hit_differ {t : ComparisonType} {P w : Str} {x y : UInt8} {k : ℕ} (h : x ≠ y)
    (hside : x < 128 ↔ y < 128) (hk : Below val (P ++ [x]) k) :
    Hit val t (P ++ y :: w) k ↔ differs t x y = true := by
  obtain ⟨v, hv, u, rfl⟩ := hk
  rw [hit_at hv, List.append_assoc]
  exact satisfies_differ P u w h hside

theorem hit_shorter {t : ComparisonType} {P w : Str} {y : UInt8} {k : ℕ} (hk : At val P k) :
    Hit val t (P ++ y :: w) k ↔ t.isLess = true := by
  rw [hit_at hk]
  exact satisfies_of_lt (lt_of_goes_on P y w)

/-- **The characters of a compressed node**: they all agree; or the text ends first; or two differ. -/
theorem lexChars_spec (t : ComparisonType) : ∀ (cs P rest : Str), P ≠ [] → (∀ x ∈ cs, x ≠ 0) →
    (∃ u, rest = cs ++ u ∧ lexChars (P ++ rest) t cs P.length = (none, P.length + cs.length)) ∨
    (∃ x u d, cs = rest ++ x :: u ∧ lexChars (P ++ rest) t cs P.length =
      (some (t.isGreater || differs t x 0), d)) ∨
    (∃ q x y u w d, cs = q ++ x :: u ∧ rest = q ++ y :: w ∧ x ≠ y ∧
      lexChars (P ++ rest) t cs P.length = (some (differs t x y), d))
  | [], P, rest, _, _ => Or.inl ⟨rest, rfl, rfl⟩
  | c :: cs, P, [], hP, hz => by
    refine Or.inr (Or.inl ⟨c, cs, P.length, rfl, ?_⟩)
    have hpos : P.length - 1 < P.length := by
      have := List.length_pos_iff.mpr hP
      omega
    rw [List.append_nil, lexChars, charAt_length]
    cases hgreater : t.isGreater with
    | true =>
      rw [if_pos ⟨hpos, rfl⟩]
      rfl
    | false =>
      have hc : c ≠ 0 := hz c List.mem_cons_self
      rw [if_neg (by simp), if_pos hc]
      unfold differs
      rw [hgreater, Bool.false_or]
  | c :: cs, P, d :: rest, _, hz => by
    have hin : ¬ ((P ++ d :: rest).length - 1 < P.length ∧ t.isGreater = true) := by
      simp
    rw [lexChars, charAt_append_cons, if_neg hin]
    by_cases hcd : c = d
    · subst hcd
      rw [if_neg (by simp)]
      have hP : P ++ c :: rest = P ++ [c] ++ rest := by simp
      have hl : P.length + 1 = (P ++ [c]).length := by simp
      rw [hP, hl]
      rcases lexChars_spec t cs (P ++ [c]) rest (by simp) fun x hx =>
        hz x (List.mem_cons_of_mem _ hx) with
        ⟨u, rfl, h⟩ | ⟨x, u, d, rfl, h⟩ | ⟨q, x, y, u, w, d, rfl, rfl, hxy, h⟩
      · refine Or.inl ⟨u, rfl, ?_⟩
        rw [h]
        simp only [List.length_append, List.length_cons, List.length_nil]
        congr 1
        omega
      · exact Or.inr (Or.inl ⟨x, u, d, rfl, h⟩)
      · exact Or.inr (Or.inr ⟨c :: q, x, y, u, w, d, rfl, rfl, hxy, h⟩)
    · rw [if_pos hcd]
      exact Or.inr (Or.inr ⟨[], c, d, cs, rest, P.length, rfl, rfl, hcd, rfl⟩)

theorem mem_here {t : ComparisonType} {s : Str} {d k : ℕ} {n : Node} : k ∈ lexHere s t d n ↔
    (k ∈ if t.orEqual && s.length - 1 == d then n.exactMatchingDocs
      else if t.isLess && decide (d < s.length - 1) then n.exactMatchingDocs else []) ∨
    ∃ m ∈ n.children, m.chars.headD 0 ≠ charAt s d ∧
      differs t (m.chars.headD 0) (charAt s d) = true ∧ k ∈ collectDocuments m := by
  unfold lexHere
  rw [List.mem_append, mem_collectAll]
  refine or_congr Iff.rfl ?_
  constructor
  · rintro ⟨m, hm, hk⟩
    rw [List.mem_filter] at hm
    obtain ⟨hm, hc⟩ := hm
    simp only [Bool.and_eq_true, bne_iff_ne] at hc
    exact ⟨m, hm, hc.1, hc.2, hk⟩
  · rintro ⟨m, hm, hne, hd, hk⟩
    refine ⟨m, List.mem_filter.mpr ⟨hm, ?_⟩, hk⟩
    simp only [Bool.and_eq_true, bne_iff_ne]
    exact ⟨hne, hd⟩

/-- **A node that is not compressed** adds the documents of the answer that are not below the next
character of the text. -/
theorem lexHere_spec {t : ComparisonType} {P w : Str} {y : UInt8} {n : Node} (hi : Inside val P n)
    (hside : ∀ x, (∃ k, Below val (P ++ [x]) k) → x ≠ y → (x < 128 ↔ y < 128))
    (hshorter : w = [] → t = .lt ∨ t = .gte → ∀ k, ¬ At val P k) (k : ℕ) :
    k ∈ lexHere (P ++ y :: w) t P.length n ↔
      Below val P k ∧ ¬ Below val (P ++ [y]) k ∧ Hit val t (P ++ y :: w) k := by
  rw [mem_here, charAt_append_cons]
  have hexact : (k ∈ if t.orEqual && (P ++ y :: w).length - 1 == P.length then n.exactMatchingDocs
      else if t.isLess && decide (P.length < (P ++ y :: w).length - 1) then n.exactMatchingDocs
      else []) ↔ At val P k ∧ t.isLess = true := by
    rw [← hi.exact_iff]
    cases w with
    | nil =>
      have hlen : (P ++ [y]).length - 1 = P.length := by simp
      have hno := hshorter rfl
      simp only [← hi.exact_iff] at hno
      rw [hlen]
      cases t <;> simp [ComparisonType.orEqual, ComparisonType.isLess] <;> first | exact hno (by simp) k
    | cons z w =>
      have hlen : P.length < (P ++ y :: z :: w).length - 1 := by simp
      have hne : ((P ++ y :: z :: w).length - 1 == P.length) = false := by
        rw [beq_eq_false_iff_ne]
        omega
      rw [hne, Bool.and_false]
      cases t <;> simp [ComparisonType.isLess]
  rw [hexact]
  constructor
  · rintro (⟨hat, hless⟩ | ⟨m, hm, hne, hd, hk⟩)
    · exact ⟨below_of_at hat, hat.not_below (by simp), (hit_shorter hat).mpr hless⟩
    · rw [mem_collectDocuments (hi.wf m hm)] at hk
      refine ⟨hk.mono (List.prefix_append _ _), fun hy => hne (below_unique hk hy), ?_⟩
      exact (hit_differ hne (hside _ ⟨k, hk⟩ hne) hk).mpr hd
  · rintro ⟨hb, hnot, hhit⟩
    rcases below_iff.mp hb with hat | ⟨x, hx⟩
    · exact Or.inl ⟨hat, (hit_shorter hat).mp hhit⟩
    · obtain ⟨m, hm, hhead⟩ := hi.cover k x hx
      have hne : x ≠ y := fun heq => hnot (heq ▸ hx)
      refine Or.inr ⟨m, hm, ?_⟩
      rw [headD_eq hhead]
      refine ⟨hne, (hit_differ hne (hside _ ⟨k, hx⟩ hne) hx).mp hhit, ?_⟩
      have hwf := hi.wf m hm
      rw [headD_eq hhead] at hwf
      exact (mem_collectDocuments hwf k).mpr hx

/-- **A compressed node** after which nothing goes on adds the documents of its own path. -/
theorem lexHere_compressed {t : ComparisonType} {P w : Str} {n : Node} (hP : P ≠ [])
    (hi : Inside val P n) (hno : ∀ k, ¬ Beyond val P k) (k : ℕ) :
    k ∈ lexHere (P ++ w) t (P.length - 1) n ↔ At val P k ∧ Hit val t (P ++ w) k := by
  have hpos := List.length_pos_iff.mpr hP
  rw [mem_here]
  have hchildren : ¬ ∃ m ∈ n.children, m.chars.headD 0 ≠ charAt (P ++ w) (P.length - 1) ∧
      differs t (m.chars.headD 0) (charAt (P ++ w) (P.length - 1)) = true ∧
      k ∈ collectDocuments m := by
    rintro ⟨m, hm, -, -, hk⟩
    rw [mem_collectDocuments (hi.wf m hm)] at hk
    exact hno k ⟨_, hk⟩
  rw [or_iff_left hchildren, ← hi.exact_iff]
  have hhit : k ∈ n.exactMatchingDocs → (Hit val t (P ++ w) k ↔ Satisfies t P (P ++ w)) := fun hk =>
    hit_at ((hi.exact_iff k).mp hk)
  cases w with
  | nil =>
    rw [List.append_nil] at hhit ⊢
    rw [satisfies_self] at hhit
    have hless : decide (P.length - 1 < P.length - 1) = false := by simp
    rw [hless, Bool.and_false, beq_self_eq_true, Bool.and_true]
    split_ifs with h1 h2
    · exact ⟨fun hk => ⟨hk, (hhit hk).mpr h1⟩, And.left⟩
    · exact absurd h2 (by simp)
    · exact ⟨fun hk => (List.not_mem_nil hk).elim, fun hk => absurd ((hhit hk.1).mp hk.2) h1⟩
  | cons y w =>
    rw [satisfies_of_lt (lt_of_goes_on P y w)] at hhit
    have hne : ((P ++ y :: w).length - 1 == P.length - 1) = false := by
      rw [beq_eq_false_iff_ne, List.length_append, List.length_cons]
      omega
    have hlt : decide (P.length - 1 < (P ++ y :: w).length - 1) = true := by
      rw [decide_eq_true_eq, List.length_append, List.length_cons]
      omega
    rw [hne, hlt, Bool.and_false, Bool.and_true, if_neg (by simp)]
    split_ifs with h1
    · exact ⟨fun hk => ⟨hk, (hhit hk).mpr h1⟩, And.left⟩
    · exact ⟨fun hk => (List.not_mem_nil hk).elim, fun hk => absurd ((hhit hk.1).mp hk.2) h1⟩

/-! ### The loop -/

theorem ForksInside.nodePath {P : Str} {n : Node} (h : ForksInside val P n) {k : ℕ}
    (hk : Below val P k) : NodePath val P := by
  rcases below_iff.mp hk with hat | hbeyond
  · exact Or.inr (Or.inl ⟨k, hat⟩)
  · exact h.branches ⟨k, hbeyond⟩

/-- What the loop has to leave out when it ends at the node of `s`. -/
def EndsAt (val : ℕ → Option Str) (t : ComparisonType) (s rest : Str) : Prop :=
  rest = [] → (t.orEqual = true → ∀ k, ¬ At val s k) ∧ (t.isGreater = true → ∀ k, ¬ Beyond val s k)

theorem EndsAt.not_hit {t : ComparisonType} {s : Str} (h : EndsAt val t s []) (k : ℕ) :
    ¬ (Below val s k ∧ Hit val t s k) := by
  rintro ⟨hb, hhit⟩
  obtain ⟨hequal, hlonger⟩ := h rfl
  rcases below_iff.mp hb with hat | hbeyond
  · exact hequal ((satisfies_self t s).mp ((hit_at hat).mp hhit)) k hat
  · exact hlonger ((hit_beyond hbeyond).mp hhit) k hbeyond

/-- **What `findLex` finds from a node on**: the documents of the answer below its first character. -/
def Hits (docs : Documents) (s : Str) (t : ComparisonType) (fuel : ℕ) : Prop :=
  ∀ (base rest : Str) (c : UInt8) (n : Node) (cache : Cache), Wf (values docs) base c n →
    Forks (values docs) base c n → s = base ++ c :: rest → rest.length ≤ fuel →
    NodePath (values docs) base → EndsAt (values docs) t s rest →
    CacheOk docs cache (Beyond (values docs) (base ++ [c])) →
    ∃ found n' cache', findLexFrom docs s t fuel (base.length + 1) n cache =
      some (found, n', cache') ∧ Wf (values docs) base c n' ∧ Forks (values docs) base c n' ∧
      ∀ k, k ∈ found ↔ Below (values docs) (base ++ [c]) k ∧ Hit (values docs) t s k

/-- The rest of the loop's body at a node that is not compressed: what the node adds, and the search
from the child on. -/
def lexStep (docs : Documents) (s : Str) (t : ComparisonType) (fuel d : ℕ) (n : Node) (cache : Cache) :
    Option (List ℕ × Node × Cache) :=
  match getChild (charAt s d) n.children with
  | none => some (lexHere s t d n, n, cache)
  | some (before, child, after) =>
    (findLexFrom docs s t fuel (d + 1) child cache).map fun (found, child, cache) =>
      (lexHere s t d n ++ found, { n with children := before ++ child :: after }, cache)

theorem lexStep_spec {s : Str} {t : ComparisonType} (hm : LexMeets (values docs) s t) {fuel : ℕ}
    (ih : Hits docs s t fuel) {P w : Str} {y : UInt8} {n : Node} {cache : Cache} (hs : s = P ++ y :: w)
    (hw : w.length ≤ fuel) (hi : Inside (values docs) P n) (hf : ForksInside (values docs) P n)
    (hbase : NodePath (values docs) P.dropLast)
    (hcache : CacheOk docs cache (Beyond (values docs) P)) :
    ∃ found n' cache', lexStep docs s t fuel P.length n cache = some (found, n', cache') ∧
      n'.chars = n.chars ∧ Inside (values docs) P n' ∧ ForksInside (values docs) P n' ∧
      ∀ k, k ∈ found ↔ Below (values docs) P k ∧ Hit (values docs) t s k := by
  have hlast : w = [] → ∀ k, Below (values docs) P k → LastOk (values docs) t s := by
    rintro rfl k hk
    have hdrop : s.dropLast = P := by rw [hs, List.dropLast_concat]
    refine hm.last ?_ ?_ <;> rw [hdrop]
    · exact hf.nodePath hk
    · exact hbase
  have hside : ∀ x, (∃ k, Below (values docs) (P ++ [x]) k) → x ≠ y → (x < 128 ↔ y < 128) :=
    fun x hx hne => hm.side P x y hx ⟨w, by rw [hs]; simp⟩ hne
  have hshorter : w = [] → t = .lt ∨ t = .gte → ∀ k, ¬ At (values docs) P k := by
    intro hw0 ht k hk
    have hno := (hlast hw0 k (below_of_at hk)).shorter ht k
    rw [hs, hw0, List.dropLast_concat] at hno
    exact hno hk
  have hhere := lexHere_spec (w := w) hi hside hshorter
  rw [← hs] at hhere
  have hchar : charAt s P.length = y := by rw [hs, charAt_append_cons]
  unfold lexStep
  rw [hchar]
  cases hchild : getChild y n.children with
  | none =>
    refine ⟨_, n, cache, rfl, rfl, hi, hf, fun k => ?_⟩
    have hno : ¬ Below (values docs) (P ++ [y]) k := fun hk => by
      obtain ⟨m, hm, hmy⟩ := hi.cover k y hk
      exact getChild_none hchild m hm hmy
    rw [hhere k]
    exact and_congr_right fun _ => and_iff_right hno
  | some res =>
    obtain ⟨before, child, after⟩ := res
    obtain ⟨hch, hcc⟩ := getChild_some hchild
    have hmem : child ∈ n.children := by rw [hch]; simp
    have hwc := hi.wf child hmem
    have hfc := hf.children child hmem
    obtain ⟨j, hj⟩ := hf.inhabited child hmem
    rw [headD_eq hcc] at hwc hfc hj
    have hj' := hj.mono (List.prefix_append P [y])
    have hends : EndsAt (values docs) t s w := fun hw0 =>
      ⟨(hlast hw0 j hj').equal, (hlast hw0 j hj').longer⟩
    obtain ⟨found, child', cache', h1, h2, h3, h4⟩ := ih P w y child cache hwc hfc hs hw
      (hf.nodePath hj') hends (hcache.mono fun k hk => hk.mono (List.prefix_append _ _))
    dsimp only
    rw [h1]
    refine ⟨_, _, cache', rfl, rfl, hi.replace hch hcc h2, hf.replace hch hcc h2.head h3, fun k => ?_⟩
    rw [List.mem_append, hhere k, h4 k]
    constructor
    · rintro (⟨hb, -, hhit⟩ | ⟨hb, hhit⟩)
      · exact ⟨hb, hhit⟩
      · exact ⟨hb.mono (List.prefix_append _ _), hhit⟩
    · rintro ⟨hb, hhit⟩
      by_cases hy : Below (values docs) (P ++ [y]) k
      · exact Or.inr ⟨hy, hhit⟩
      · exact Or.inl ⟨hb, hy, hhit⟩

/-- **A compressed node** on the way of the text: nothing goes on after it. -/
theorem chain_ends {s : Str} {t : ComparisonType} (hm : LexMeets val s t) {base cs : Str} {c : UInt8}
    {n : Node} (hcs : cs ≠ []) (hs : base ++ c :: cs <+: s)
    (hall : ∀ k, Below val (base ++ [c]) k → Below val (base ++ c :: cs) k)
    (hf : ForksInside val (base ++ c :: cs) n) (k : ℕ) : ¬ Beyond val (base ++ c :: cs) k := by
  intro hk
  refine hm.chain _ hs (hf.nodePath hk.below) ?_ k hk
  have hdrop : (base ++ c :: cs).dropLast = base ++ c :: cs.dropLast := by
    rw [List.dropLast_append_of_ne_nil (by simp), List.dropLast_cons_of_ne_nil hcs]
  rw [hdrop]
  rintro (h | h)
  · simp at h
  · refine not_branches hk.below ?_ ?_ (fun j hj => hall j (hj.mono (by simp))) h
    · rw [← hdrop]
      exact List.dropLast_prefix _
    · rw [← hdrop]
      intro heq
      have := congrArg List.length heq
      rw [List.length_dropLast] at this
      simp only [List.length_append, List.length_cons] at this
      omega

/-- **The loop from a node on**, by induction on the fuel. -/
theorem findLex_hits {s : Str} {t : ComparisonType} (hm : LexMeets (values docs) s t) :
    ∀ fuel, Hits docs s t fuel := by
  intro fuel
  induction fuel with
  | zero =>
    intro base rest c n cache hw hf hs hfuel _ hends _
    obtain rfl : rest = [] := List.length_eq_zero_iff.mp (by omega)
    refine ⟨[], n, cache, rfl, hw, hf, fun k => iff_of_false List.not_mem_nil ?_⟩
    rw [← hs]
    exact hends.not_hit k
  | succ fuel ih =>
    intro base rest c n cache hw hf hs hfuel hbase hends hcache
    cases rest with
    | nil =>
      refine ⟨[], n, cache, ?_, hw, hf, fun k => iff_of_false List.not_mem_nil ?_⟩
      · rw [findLexFrom, if_neg (by rw [hs]; simp)]
      · rw [← hs]
        exact hends.not_hit k
    | cons r rest =>
      have hlt : base.length + 1 < s.length := by rw [hs]; simp
      obtain ⟨n₁, cache₁, cs, hvisit, hchars, hz, hall, hi, hcache₁, -, -⟩ := visit_spec hw hcache
      obtain ⟨cs', hchars', hf₁⟩ := visit_forks hw hf hcache hvisit
      obtain rfl : cs = cs' := by
        rw [hchars, List.cons.injEq] at hchars'
        exact hchars'.2
      have hw₁ : Wf (values docs) base c n₁ := wf_iff.mpr (Or.inr ⟨cs, hchars, hall, hz, hi⟩)
      have hfk₁ : Forks (values docs) base c n₁ := .of_inside hf₁ hi.notVirtual hchars
      have hiff : ∀ k, Below (values docs) (base ++ [c]) k ↔ Below (values docs) (base ++ c :: cs) k :=
        fun k => ⟨hall k, fun hk => hk.mono (by simp)⟩
      have hsplit : s = base ++ [c] ++ r :: rest := by rw [hs]; simp
      have hlen : base.length + 1 = (base ++ [c]).length := by simp
      have hlex := lexChars_spec t cs (base ++ [c]) (r :: rest) (by simp) hz
      rw [← hsplit, ← hlen] at hlex
      have htail : n₁.chars.tail = cs := by rw [hchars]; rfl
      rw [findLexFrom, if_pos hlt, hvisit, Option.bind_some]
      dsimp only
      rw [htail]
      rcases hlex with ⟨u, hu, hres⟩ | ⟨x, u, d, hcs, hres⟩ | ⟨q, x, y, u, w, d, hcs, hw', hxy, hres⟩
      · rw [hres]
        dsimp only
        cases cs with
        | nil =>
          -- not compressed
          have hshort : ¬ 1 < n₁.chars.length := by rw [hchars]; simp
          have hd : ¬ s.length ≤ base.length + 1 := by omega
          have hstep := lexStep_spec hm ih hsplit (by simp at hfuel; omega) hi hf₁
            (by rw [List.dropLast_concat]; exact hbase) hcache₁
          obtain ⟨found, n', cache', h1, h2, h3, h4, h5⟩ := hstep
          rw [if_neg hshort, List.length_nil, Nat.add_zero, if_neg hd]
          rw [← hlen] at h1
          refine ⟨found, n', cache', h1, ?_, ?_, h5⟩
          · exact wf_iff.mpr (Or.inr ⟨[], h2.trans hchars, hall, hz, h3⟩)
          · exact .of_inside h4 h3.notVirtual (h2.trans hchars)
        | cons e cs =>
          -- all characters of a compressed node agree
          have hPs : s = base ++ c :: e :: cs ++ u := by rw [hsplit, hu]; simp
          have hno := chain_ends hm (by simp) ⟨u, hPs.symm⟩ hall hf₁
          have hnochild : n₁.children = [] := by
            refine List.eq_nil_iff_forall_not_mem.mpr fun m hmem => ?_
            obtain ⟨k, hk⟩ := hf₁.inhabited m hmem
            exact hno k ⟨_, hk⟩
          have hlong : 1 < n₁.chars.length := by rw [hchars]; simp
          have hdepth : base.length + 1 + (e :: cs).length - 1 = (base ++ c :: e :: cs).length - 1 := by
            simp only [List.length_append, List.length_cons]
            omega
          have hd : ¬ s.length ≤ (base ++ c :: e :: cs).length - 1 := by
            rw [hPs]
            simp only [List.length_append, List.length_cons]
            omega
          rw [if_pos hlong, hdepth, if_neg hd, hnochild]
          refine ⟨_, n₁, cache₁, rfl, hw₁, hfk₁, fun k => ?_⟩
          have hhere := lexHere_compressed (t := t) (w := u) (by simp) hi hno k
          rw [← hPs] at hhere
          rw [hhere, hiff k, below_iff, or_iff_left (hno k)]
      · -- the text ends among the characters
        rw [hres]
        dsimp only
        refine ⟨_, n₁, cache₁, rfl, hw₁, hfk₁, fun k => ?_⟩
        have hPs : base ++ c :: cs = s ++ x :: u := by rw [hsplit, hcs]; simp
        have hdocs : k ∈ collectDocuments n₁ ↔ Below (values docs) (base ++ [c]) k := by
          rw [hi.mem_collect, hiff]
        have hgo : Below (values docs) (base ++ [c]) k →
            (Hit (values docs) t s k ↔ (t.isGreater || differs t x 0) = true) := fun hk => by
          have hk' := (hiff k).mp hk
          have hx : Below (values docs) (s ++ [x]) k := by
            rw [hPs] at hk'
            exact hk'.mono ⟨u, by simp⟩
          rw [hit_beyond ⟨x, hx⟩]
          rcases isLess_or t with ⟨hless, hgreater⟩ | ⟨hless, hgreater⟩
          · have hside : x < 128 := by
              refine hm.ends hless ?_ x ⟨k, hx⟩
              have hdrop : s.dropLast = base ++ c :: (r :: rest).dropLast := by
                rw [hs, List.dropLast_append_of_ne_nil (by simp), List.dropLast_cons_of_ne_nil (by simp)]
              rintro (h | h)
              · rw [hdrop] at h
                simp at h
              · refine not_branches hk' ?_ ?_ (fun j hj => hall j (hj.mono ?_)) h
                · exact (List.dropLast_prefix s).trans ⟨x :: u, hPs.symm⟩
                · intro heq
                  have := congrArg List.length (heq.trans hPs)
                  simp only [List.length_dropLast, List.length_append, List.length_cons] at this
                  omega
                · rw [hdrop]
                  simp
            have hxy : charLess x 0 = false := by
              rw [← Bool.not_eq_true, charLess_iff (by simp [hside])]
              simp
            unfold differs
            rw [hless, hgreater, hxy]
            simp
          · rw [hgreater]
            simp
        cases hall' : (t.isGreater || differs t x 0) with
        | true =>
          rw [if_pos rfl, hdocs]
          exact ⟨fun hk => ⟨hk, (hgo hk).mpr hall'⟩, And.left⟩
        | false =>
          rw [if_neg (by simp)]
          refine iff_of_false List.not_mem_nil fun hk => ?_
          have := (hgo hk.1).mp hk.2
          rw [hall'] at this
          cases this
      · -- two characters differ
        rw [hres]
        dsimp only
        refine ⟨_, n₁, cache₁, rfl, hw₁, hfk₁, fun k => ?_⟩
        have hdocs : k ∈ collectDocuments n₁ ↔ Below (values docs) (base ++ [c]) k := by
          rw [hi.mem_collect, hiff]
        have hPs : s = base ++ c :: q ++ y :: w := by rw [hsplit, hw']; simp
        have hgo : Below (values docs) (base ++ [c]) k →
            (Hit (values docs) t s k ↔ differs t x y = true) := fun hk => by
          have hx : Below (values docs) (base ++ c :: q ++ [x]) k := by
            have hk' := (hiff k).mp hk
            rw [hcs] at hk'
            exact hk'.mono ⟨u, by simp⟩
          rw [hPs]
          exact hit_differ hxy (hm.side _ x y ⟨k, hx⟩ ⟨w, by rw [hPs]; simp⟩ hxy) hx
        cases hall' : differs t x y with
        | true =>
          rw [if_pos rfl, hdocs]
          exact ⟨fun hk => ⟨hk, (hgo hk).mpr hall'⟩, And.left⟩
        | false =>
          rw [if_neg (by simp)]
          refine iff_of_false List.not_mem_nil fun hk => ?_
          have := (hgo hk.1).mp hk.2
          rw [hall'] at this
          cases this

/-! ### Earlier queries -/

/-- **What a search makes of a node**: it visits it, and goes on at one of its children. -/
inductive Walked (docs : Documents) : Node → Cache → Node → Prop
  | stop {n : Node} {cache : Cache} : Walked docs n cache n
  | visit {n n' : Node} {cache cache' : Cache} (h : visit docs n cache = some (n', cache')) :
      Walked docs n cache n'
  | descend {n n' child child' : Node} {cache cache' : Cache} {before after : List Node} {c : UInt8}
      (h : Trie.visit docs n cache = some (n', cache'))
      (children : n'.children = before ++ child :: after) (head : child.chars.head? = some c)
      (below : Walked docs child cache' child') :
      Walked docs n cache { n' with children := before ++ child' :: after }

/-- A search keeps the documents of a node, and that it branches. -/
theorem Walked.keeps {base : Str} {c : UInt8} {n n' : Node} {cache : Cache}
    (h : Walked docs n cache n') (hw : Wf (values docs) base c n) (hf : Forks (values docs) base c n)
    (hcache : CacheOk docs cache (Beyond (values docs) (base ++ [c]))) :
    Wf (values docs) base c n' ∧ Forks (values docs) base c n' := by
  induction h generalizing base c with
  | stop => exact ⟨hw, hf⟩
  | visit hvisit =>
    obtain ⟨n₁, cache₁, cs, h1, hchars, hz, hall, hi, -, -, -⟩ := visit_spec hw hcache
    obtain ⟨cs', hchars', hf₁⟩ := visit_forks hw hf hcache hvisit
    obtain ⟨rfl, rfl⟩ : n₁ = _ ∧ cache₁ = _ := by simpa using h1.symm.trans hvisit
    obtain rfl : cs = cs' := by
      rw [hchars, List.cons.injEq] at hchars'
      exact hchars'.2
    exact ⟨wf_iff.mpr (Or.inr ⟨cs, hchars, hall, hz, hi⟩), .of_inside hf₁ hi.notVirtual hchars⟩
  | @descend n n' child child' cache cache' before after d hvisit hch hcc _ ih =>
    obtain ⟨n₁, cache₁, cs, h1, hchars, hz, hall, hi, hcache₁, -, -⟩ := visit_spec hw hcache
    obtain ⟨cs', hchars', hf₁⟩ := visit_forks hw hf hcache hvisit
    obtain ⟨rfl, rfl⟩ : n₁ = n' ∧ cache₁ = cache' := by simpa using h1.symm.trans hvisit
    obtain rfl : cs = cs' := by
      rw [hchars, List.cons.injEq] at hchars'
      exact hchars'.2
    have hmem : child ∈ n₁.children := by rw [hch]; simp
    have hwc := hi.wf child hmem
    have hfc := hf₁.children child hmem
    rw [headD_eq hcc] at hwc hfc
    obtain ⟨hw', hf'⟩ := ih hwc hfc (hcache₁.mono fun k hk => hk.mono (List.prefix_append _ _))
    exact ⟨wf_iff.mpr (Or.inr ⟨cs, hchars, hall, hz, hi.replace hch hcc hw'⟩),
      .of_inside (hf₁.replace hch hcc hw'.head hf') hi.notVirtual hchars⟩

theorem find_walked {s : Str} {startsWithSearch : Bool} : ∀ (fuel d : ℕ) (n : Node) (cache : Cache)
    {r : Option Node} {n' : Node} {cache' : Cache},
    findMatchingNode docs s startsWithSearch fuel d n cache = some (r, n', cache') →
      Walked docs n cache n' := by
  intro fuel
  induction fuel with
  | zero =>
    intro d n cache r n' cache' h
    cases h
    exact .stop
  | succ fuel ih =>
    intro d n cache r n' cache' h
    rw [findMatchingNode] at h
    split_ifs at h with hlt
    · obtain ⟨⟨n₁, cache₁⟩, hvisit, h⟩ := Option.bind_eq_some_iff.mp h
      dsimp only at h
      split at h
      · split_ifs at h <;> cases h <;> exact .visit hvisit
      · split_ifs at h
        · cases h
          exact .visit hvisit
        · split at h
          · cases h
            exact .visit hvisit
          · rename_i before child after hchild
            obtain ⟨⟨r', child', cache₂⟩, hbelow, h⟩ := Option.map_eq_some_iff.mp h
            cases h
            obtain ⟨hch, hcc⟩ := getChild_some hchild
            exact .descend hvisit hch hcc (ih _ _ _ hbelow)
    · cases h
      exact .stop

theorem findLex_walked {s : Str} {t : ComparisonType} : ∀ (fuel d : ℕ) (n : Node) (cache : Cache)
    {found : List ℕ} {n' : Node} {cache' : Cache},
    findLexFrom docs s t fuel d n cache = some (found, n', cache') → Walked docs n cache n' := by
  intro fuel
  induction fuel with
  | zero =>
    intro d n cache r n' cache' h
    cases h
    exact .stop
  | succ fuel ih =>
    intro d n cache r n' cache' h
    rw [findLexFrom] at h
    split_ifs at h with hlt
    · obtain ⟨⟨n₁, cache₁⟩, hvisit, h⟩ := Option.bind_eq_some_iff.mp h
      dsimp only at h
      split at h
      · cases h
        exact .visit hvisit
      · generalize (if 1 < n₁.chars.length then _ else _) = d' at h
        split_ifs at h
        · cases h
          exact .visit hvisit
        · split at h
          · cases h
            exact .visit hvisit
          · rename_i before child after hchild
            obtain ⟨⟨r', child', cache₂⟩, hbelow, h⟩ := Option.map_eq_some_iff.mp h
            cases h
            obtain ⟨hch, hcc⟩ := getChild_some hchild
            exact .descend hvisit hch hcc (ih _ _ _ hbelow)
    · cases h
      exact .stop

/-- **The invariant of the runs.** -/
structure RootForks (docs : Documents) (root : Node) : Prop where
  rooted : Rooted docs root
  forks : ForksInside (values docs) [] root

theorem RootForks.walked {root root' : Node} (h : RootForks docs root)
    (hw : Walked docs root .empty root') : RootForks docs root' := by
  cases hw with
  | stop => exact h
  | visit hvisit =>
    rw [visit_root h.rooted] at hvisit
    cases hvisit
    exact h
  | @descend _ _ child child' _ _ before after c hvisit hch hcc hbelow =>
    rw [visit_root h.rooted] at hvisit
    cases hvisit
    have hmem : child ∈ root.children := by rw [hch]; simp
    have hwc := h.rooted.inside.wf _ hmem
    have hfc := h.forks.children _ hmem
    rw [headD_eq hcc] at hwc hfc
    obtain ⟨hw', hf'⟩ := hbelow.keeps hwc hfc (emptyCache_ok _)
    exact ⟨h.rooted.replace hch hcc hw', h.forks.replace hch hcc hw'.head hf'⟩

/-- A query walks down the trie. -/
theorem call_walked {root root' : Node} {call : Call} {result : Finset ℕ}
    (hc : call.run docs root = some (result, root')) : Walked docs root .empty root' := by
  have heq : ∀ {s : Str} {result : Finset ℕ} {root' : Node},
      findEq docs root s = some (result, root') → Walked docs root .empty root' := by
    intro s result root' hs
    obtain ⟨⟨r, n, cache⟩, hfind, hs⟩ := Option.map_eq_some_iff.mp hs
    cases hs
    exact find_walked _ _ _ _ hfind
  cases call with
  | findEq s => exact heq hc
  | findNotEq s =>
    obtain ⟨⟨r, n⟩, hfind, hc⟩ := Option.map_eq_some_iff.mp hc
    cases hc
    exact heq hfind
  | findStartsWith s =>
    obtain ⟨⟨r, n, cache⟩, hfind, hc⟩ := Option.map_eq_some_iff.mp hc
    cases hc
    exact find_walked _ _ _ _ hfind
  | findLex s t =>
    obtain ⟨⟨r, n, cache⟩, hfind, hc⟩ := Option.map_eq_some_iff.mp hc
    cases hc
    exact findLex_walked _ _ _ _ hfind

/-- **Every query keeps it.** -/
theorem RootForks.call {root root' : Node} (h : RootForks docs root) {call : Call} {result : Finset ℕ}
    (hc : call.run docs root = some (result, root')) : RootForks docs root' :=
  h.walked (call_walked hc)

/-! ### The answers -/

/-- **The lexicographic comparisons** of `getDocumentsSecond`, with the special cases of the empty
string; `stringDocuments` are the ranges of the documents that have a string. -/
def getLexDocuments (docs : Documents) (stringDocuments : List ℕ) (root : Node) (strValue : Str)
    (cmpType : ComparisonType) : Option (Finset ℕ × Node) :=
  if strValue.length = 0 ∧ cmpType = .lt then some (∅, root)
  else if strValue.length = 0 ∧ cmpType = .gte then some ((expand stringDocuments).toFinset, root)
  else findLex docs root strValue cmpType

/-- The answer has exactly the documents whose value satisfies the comparison. -/
def LexRightAt (docs : Documents) (stringDocuments : List ℕ) (root : Node) (s : Str)
    (t : ComparisonType) : Prop :=
  ∃ result root', getLexDocuments docs stringDocuments root s t = some (result, root') ∧
    ∀ k, k ∈ result ↔ ∃ v, docs.string k = some v ∧ Satisfies t v s

/-- **The condition on a comparison**: what follows a zero byte of a value decides nothing, nothing is
greater than the empty string, and `LexMeets` for any other. -/
structure QueryMeets (docs : Documents) (s : Str) (t : ComparisonType) : Prop where
  zero : ∀ k v, docs.string k = some v → (Satisfies t (cString v) s ↔ Satisfies t v s)
  empty : s = [] → t = .gt → ∀ k, docs.string k = none
  lex : s ≠ [] → LexMeets (values docs) s t

theorem hit_iff {s : Str} {t : ComparisonType} (hm : QueryMeets docs s t) (k : ℕ) :
    Hit (values docs) t s k ↔ ∃ v, docs.string k = some v ∧ Satisfies t v s := by
  unfold Hit values
  constructor
  · rintro ⟨w, hw, hs⟩
    obtain ⟨v, hv, rfl⟩ := Option.map_eq_some_iff.mp hw
    exact ⟨v, hv, (hm.zero k v hv).mp hs⟩
  · rintro ⟨v, hv, hs⟩
    exact ⟨cString v, by rw [hv]; rfl, (hm.zero k v hv).mpr hs⟩

/-- The search from the root, for a text that is not empty. -/
theorem findLex_root_hits {root : Node} (h : RootForks docs root) {c : UInt8} {rest : Str}
    {t : ComparisonType} (hm : LexMeets (values docs) (c :: rest) t) :
    ∃ result root', findLex docs root (c :: rest) t = some (result, root') ∧
      ∀ k, k ∈ result ↔ Hit (values docs) t (c :: rest) k := by
  have hlex : lexChars (c :: rest) t root.chars.tail 0 = (none, 0) := by rw [h.rooted.chars]; rfl
  have hshort : ¬ 1 < root.chars.length := by rw [h.rooted.chars]; simp
  obtain ⟨found, n', cache', h1, -, -, -, h2⟩ := @lexStep_spec docs (c :: rest) t hm rest.length
    (findLex_hits hm rest.length) [] rest c root .empty rfl le_rfl h.rooted.inside h.forks (Or.inl rfl)
    (emptyCache_ok _)
  refine ⟨found.toFinset, n', ?_, fun k => ?_⟩
  · have hstep : findLexFrom docs (c :: rest) t (c :: rest).length 0 root .empty =
        some (found, n', cache') := by
      rw [List.length_cons, findLexFrom, if_pos (by simp), visit_root h.rooted, Option.bind_some]
      dsimp only
      rw [hlex]
      dsimp only
      rw [if_neg hshort, if_neg (by simp)]
      exact h1
    unfold findLex
    rw [hstep]
    rfl
  · rw [List.mem_toFinset, h2 k]
    refine and_iff_right_of_imp ?_
    rintro ⟨v, hv, -⟩
    exact ⟨v, hv, List.nil_prefix⟩

/-- **A comparison that meets the condition gets the right answer.** -/
theorem getLexDocuments_right {stringDocuments : List ℕ} {root : Node} (h : RootForks docs root)
    (hr : ∀ k, k ∈ expand stringDocuments ↔ (docs.string k).isSome)
    (hne : ∀ k v, docs.string k = some v → cString v ≠ []) {s : Str} {t : ComparisonType}
    (hm : QueryMeets docs s t) : LexRightAt docs stringDocuments root s t := by
  cases s with
  | cons c rest =>
    obtain ⟨result, root', h1, h2⟩ := findLex_root_hits h (hm.lex (by simp))
    refine ⟨result, root', ?_, fun k => (h2 k).trans (hit_iff hm k)⟩
    unfold getLexDocuments
    rw [if_neg (by simp), if_neg (by simp)]
    exact h1
  | nil =>
    have hgreater : ∀ k v, docs.string k = some v → ([] : Str) < v := fun k v hv => by
      cases v with
      | nil => exact absurd rfl (hne k [] hv)
      | cons c v => exact List.nil_lt_cons c v
    cases t with
    | lt =>
      refine ⟨∅, root, rfl, fun k => iff_of_false (by simp) ?_⟩
      rintro ⟨v, -, hlt⟩
      exact List.not_lt_nil v hlt
    | gte =>
      refine ⟨(expand stringDocuments).toFinset, root, rfl, fun k => ?_⟩
      rw [List.mem_toFinset, hr k, Option.isSome_iff_exists]
      exact exists_congr fun v => (and_iff_left (List.not_lt_nil v)).symm
    | lte =>
      refine ⟨∅, root, rfl, fun k => iff_of_false (by simp) ?_⟩
      rintro ⟨v, hv, hnot⟩
      exact hnot (hgreater k v hv)
    | gt =>
      refine ⟨∅, root, rfl, fun k => iff_of_false (by simp) ?_⟩
      rintro ⟨v, hv, -⟩
      rw [hm.empty rfl rfl k] at hv
      cases hv

/-- The filled trie has only children that were not read. -/
theorem fill_forks {filling : Filling} (hl : Lists docs filling) (hf : Fits docs filling) :
    ∃ root, filling.run docs = some root ∧ RootForks docs root := by
  obtain ⟨root, hrun, hrooted⟩ := fill_rooted hl hf
  obtain ⟨children, hrun', hsorted, -⟩ := fill_sorted hl hf
  obtain rfl := Option.some.inj (hrun'.symm.trans hrun)
  refine ⟨_, hrun, hrooted, fun _ => Or.inl rfl, fun m hm => ?_, fun m hm => .unread ?_⟩
  · obtain ⟨k, -, hk⟩ := hsorted.inhabited m hm
    exact ⟨k, hk⟩
  · rw [(hsorted.holds m hm).shape]

/-- **After any earlier queries**, a lexicographic comparison that meets the condition gets the right
answer. -/
theorem lex_right {filling : Filling} {stringDocuments : List ℕ} (hl : Lists docs filling)
    (hr : ∀ k, k ∈ expand stringDocuments ↔ (docs.string k).isSome) (hf : Fits docs filling) :
    ∃ root, filling.run docs = some root ∧ ∀ (past : List (Node × Call)) (trie : Node),
      Run (· = root) (Step docs) past trie → ∀ s t, QueryMeets docs s t →
        LexRightAt docs stringDocuments trie s t := by
  obtain ⟨root, hroot, hforks⟩ := fill_forks hl hf
  refine ⟨root, hroot, fun past trie hrun s t hm => getLexDocuments_right ?_ hr hf.nonempty hm⟩
  refine (hrun.invariant (RootForks docs) (fun _ _ => True) (fun s hs => ?_) ?_ fun _ _ => trivial).1
  · rw [hs]
    exact hforks
  · rintro call s s' hs - ⟨result, hcall⟩
    exact hs.call hcall

theorem below_twoDocs {P : Str} {k : ℕ} (h : Below (values twoDocs) P k) :
    P <+: [97, 98] ∨ P <+: [98] := by
  obtain ⟨v, hv, hp⟩ := below_iff_string.mp h
  simp only [twoDocs] at hv
  split_ifs at hv <;> cases hv
  · exact Or.inl hp
  · exact Or.inr hp

/-- Only `b` is greater than `axx`, which ends below no node. -/
theorem twoDocs_meets : QueryMeets twoDocs [97, 120, 120] .gte := by
  have hno : ∀ P k, [97, 120] <+: P → ¬ Below (values twoDocs) P k := fun P k hP hk => by
    rcases below_twoDocs hk with h | h
    · exact absurd (hP.trans h) (by decide)
    · exact absurd (hP.trans h) (by decide)
  refine ⟨fun k v hv => ?_, fun h => absurd h (by simp), fun _ => ⟨fun P hP hnode hdrop k hk => ?_,
    fun hnode => ?_, fun P x y ⟨k, hk⟩ hy hne => ?_, fun h => absurd h (by decide)⟩⟩
  · simp only [twoDocs] at hv
    split_ifs at hv <;> cases hv <;> rfl
  · -- a path of one character comes right after the root
    have hlen : 2 ≤ P.length := by
      by_contra hlt
      refine hdrop (Or.inl (List.length_eq_zero_iff.mp ?_))
      rw [List.length_dropLast]
      omega
    refine hno P k ?_ hk.below
    exact List.prefix_of_prefix_length_le ⟨[120], rfl⟩ hP hlen
  · have hbranches : Branches (values twoDocs) [97, 120] := hnode.resolve_left (by simp)
    rcases hbranches with ⟨k, hk⟩ | ⟨c, d, -, ⟨k, hk⟩, -⟩
    · exact absurd (below_of_at hk) (hno _ k (List.prefix_refl _))
    · exact absurd hk (hno _ k (List.prefix_append _ _))
  · have hx : x ∈ [97, 98] ∨ x ∈ [98] :=
      (below_twoDocs hk).imp (fun h => h.subset (by simp)) fun h => h.subset (by simp)
    have hy' : y ∈ [97, 120, 120] := hy.subset (by simp)
    simp only [List.mem_cons, List.not_mem_nil, or_false] at hx hy'
    rcases hx with (rfl | rfl) | rfl <;> rcases hy' with rfl | rfl | rfl <;> decide

theorem twoDocs_lex_right : ∃ root, (Filling.steps [0, 1]).run twoDocs = some root ∧
    ∀ (past : List (Node × Call)) (trie : Node), Run (· = root) (Step twoDocs) past trie →
      LexRightAt twoDocs [0, 1] trie [97, 120, 120] .gte := by
  have hdocs : ∀ k, k ∈ [0, 1] ↔ (twoDocs.string k).isSome := fun k => by
    simp only [twoDocs]
    split_ifs <;> simp_all
  obtain ⟨root, hroot, hright⟩ := @lex_right twoDocs (.steps [0, 1]) [0, 1] hdocs hdocs
    ⟨fun k v hv => by
      simp only [twoDocs] at hv
      split_ifs at hv <;> cases hv <;> decide, fun ranges h => by cases h⟩
  exact ⟨root, hroot, fun past trie hrun => hright past trie hrun _ _ twoDocs_meets⟩

/-- The value `ab` is not found by `>= "a"`. -/
theorem lex_misses : ¬ ∀ root, (Filling.steps [0]).run oneDoc = some root →
    ∀ (past : List (Node × Call)) (trie : Node), Run (· = root) (Step oneDoc) past trie →
      ∀ s t, LexRightAt oneDoc [0, 0] trie s t := by
  intro h
  have hroot : ∃ root root', (Filling.steps [0]).run oneDoc = some root ∧
      getLexDocuments oneDoc [0, 0] root [97] .gte = some (∅, root') := ⟨_, _, rfl, rfl⟩
  obtain ⟨root, root', hroot, hempty⟩ := hroot
  obtain ⟨result, root'', hresult, hiff⟩ := h root hroot [] root (.start rfl) [97] .gte
  obtain ⟨rfl, -⟩ := Prod.mk.inj (Option.some.inj (hresult.symm.trans hempty))
  have hin := (hiff 0).mpr ⟨[97, 98], rfl, by decide⟩
  simp at hin

end Joda.Index.TrieLex
