import Joda.Index.TrieInvariant
import Joda.Lib.Runs

/-! # Searching the trie

`find_spec` says where a search for `cmpVal` ends and how this depends on the trie before it. The
lookup `nodeAt`, which reads nothing, finds the node that `cmpVal` leads to if its first character is
the last one of `cmpVal`; the search then ends at that node without looking at its other characters.
So `findEq` is wrong there if the node was compressed, and `findStartsWith` is wrong at a virtual
node without longer values. Everywhere else the answers are right (`answer_right_iff`). -/

namespace Joda.Index.TrieSearch

open Joda.Index.Trie Joda.Index.TrieInvariant Joda.Lib.Runs

variable {docs : Documents}

/-! ### Comparing the characters of a node -/

theorem charAt_append_cons (P rest : Str) (c : UInt8) : charAt (P ++ c :: rest) P.length = c := by
  simp [charAt, List.getD]

theorem charAt_length (P : Str) : charAt P P.length = 0 := by simp [charAt, List.getD]

/-- The characters all agree; or the text ends first; or they differ. -/
theorem matchChars_spec : ∀ (cs P rest : Str), (∀ x ∈ cs, x ≠ 0) →
    (∃ t, rest = cs ++ t ∧ matchChars (P ++ rest) cs P.length = (true, P.length + cs.length)) ∨
    (rest <+: cs ∧ rest ≠ cs ∧
      matchChars (P ++ rest) cs P.length = (false, (P ++ rest).length)) ∨
    (¬ rest <+: cs ∧ ¬ cs <+: rest ∧ ∃ d, d < (P ++ rest).length ∧
      matchChars (P ++ rest) cs P.length = (false, d))
  | [], P, rest, _ => Or.inl ⟨rest, rfl, rfl⟩
  | c :: cs, P, [], hz => by
    refine Or.inr (Or.inl ⟨List.nil_prefix, by simp, ?_⟩)
    rw [List.append_nil, matchChars, charAt_length, if_pos (hz c List.mem_cons_self)]
  | c :: cs, P, d :: rest, hz => by
    rw [matchChars, charAt_append_cons]
    by_cases hcd : c = d
    · subst hcd
      rw [if_neg (by simp)]
      have hP : P ++ c :: rest = P ++ [c] ++ rest := by simp
      have hl : P.length + 1 = (P ++ [c]).length := by simp
      rw [hP, hl]
      rcases matchChars_spec cs (P ++ [c]) rest fun x hx => hz x (List.mem_cons_of_mem _ hx) with
        ⟨t, rfl, h⟩ | ⟨h1, h2, h3⟩ | ⟨h1, h2, e, h3, h4⟩
      · refine Or.inl ⟨t, rfl, ?_⟩
        rw [h]
        simp only [List.length_append, List.length_cons, List.length_nil]
        congr 1
        omega
      · exact Or.inr (Or.inl ⟨(List.cons_prefix_cons).mpr ⟨rfl, h1⟩, by simpa using h2, h3⟩)
      · refine Or.inr (Or.inr ⟨?_, ?_, e, h3, h4⟩)
        · rwa [List.cons_prefix_cons, and_iff_right rfl]
        · rwa [List.cons_prefix_cons, and_iff_right rfl]
    · rw [if_pos hcd]
      refine Or.inr (Or.inr ⟨?_, ?_, P.length, by simp, rfl⟩)
      · rw [List.cons_prefix_cons]
        exact fun h => hcd h.1.symm
      · rw [List.cons_prefix_cons]
        exact fun h => hcd h.1

/-! ### The lookup that reads nothing -/

/-- The node of which `cmpVal` ends with the first character, if it is there. -/
def nodeAt (cmpVal : Str) : ℕ → ℕ → Node → Option Node
  | 0, _, node => some node
  | fuel + 1, depthIndex, node =>
    if depthIndex < cmpVal.length then
      if node.isVirtual then none
      else
        match matchChars cmpVal node.chars.tail depthIndex with
        | (false, _) => none
        | (true, depthIndex) =>
          if cmpVal.length ≤ depthIndex then none
          else
            match getChild (charAt cmpVal depthIndex) node.children with
            | none => none
            | some (_, child, _) => nodeAt cmpVal fuel (depthIndex + 1) child
    else some node

/-- **Where a search for `cmpVal` ends**, with the result `here` of the lookup. -/
inductive Outcome (val : ℕ → Option Str) (cmpVal : Str) (startsWithSearch : Bool)
    (here : Option Node) : Option Node → Prop
  /-- nowhere: there is no such document -/
  | missed (h : here = none) (hno : ∀ k, ¬ At val cmpVal k)
      (hsw : startsWithSearch = true → ∀ k, ¬ Below val cmpVal k) :
      Outcome val cmpVal startsWithSearch here none
  /-- at the node of the lookup -/
  | entered {base : Str} {c : UInt8} {n : Node} (h : here = some n) (hw : Wf val base c n)
      (hc : cmpVal = base ++ [c]) : Outcome val cmpVal startsWithSearch here (some n)
  /-- at a node the search has just made, beside other values -/
  | fresh {base : Str} {c : UInt8} {n : Node} (h : here = none) (hw : Wf val base c n)
      (hc : cmpVal = base ++ [c]) (hv : n.isVirtual = true) (hl : n.chars.length = 1)
      (hother : ∃ k v, val k = some v ∧ base <+: v ∧ v ≠ cmpVal) :
      Outcome val cmpVal startsWithSearch here (some n)
  /-- among the characters of a compressed node -/
  | inside {base cs : Str} {c : UInt8} {n : Node} (h : here = none)
      (hi : Inside val (base ++ c :: cs) n) (hlt : (base ++ [c]).length < cmpVal.length)
      (hb : base ++ [c] <+: cmpVal) (hp : cmpVal <+: base ++ c :: cs)
      (hall : ∀ k, Below val (base ++ [c]) k → Below val (base ++ c :: cs) k)
      (heq : startsWithSearch = false → cmpVal = base ++ c :: cs) :
      Outcome val cmpVal startsWithSearch here (some n)

theorem nodeAt_virtual {cmpVal : Str} {fuel depthIndex : ℕ} {n : Node} (hv : n.isVirtual = true)
    (hlt : depthIndex < cmpVal.length) : nodeAt cmpVal (fuel + 1) depthIndex n = none := by
  rw [nodeAt, if_pos hlt, if_pos hv]

/-- Below a node that was virtual, the node of the lookup is a new one. -/
theorem Outcome.to_fresh {val : ℕ → Option Str} {cmpVal P : Str} {c : UInt8} {startsWithSearch : Bool}
    {n : Node} {r : Option Node} (h : Outcome val cmpVal startsWithSearch (some n) r)
    (hv : n.isVirtual = true) (hl : n.chars.length = 1) (hc : cmpVal = P ++ [c])
    (hother : ∃ k v, val k = some v ∧ P <+: v ∧ v ≠ P ++ [c]) :
    Outcome val cmpVal startsWithSearch none r := by
  cases h with
  | missed h => cases h
  | fresh h => cases h
  | inside h => cases h
  | entered h hw hc' =>
    obtain rfl := Option.some.inj h
    obtain ⟨rfl, hcc⟩ := List.append_inj' (hc.symm.trans hc') rfl
    rw [hc] at *
    exact .fresh rfl hw hc' hv hl hother

/-- **The search** from a node, `rest` being what is still to be found below it. The induction is on
the fuel; each step visits the node, compares its characters and goes on at a child. -/
theorem find_spec (startsWithSearch : Bool) : ∀ (fuel : ℕ) (base rest : Str) (c : UInt8) (n : Node)
    (cache : Cache), Wf (values docs) base c n → rest.length ≤ fuel →
    CacheOk docs cache (Beyond (values docs) (base ++ [c])) →
    ∃ r n' cache', findMatchingNode docs (base ++ c :: rest) startsWithSearch fuel (base.length + 1) n
        cache = some (r, n', cache') ∧ Wf (values docs) base c n' ∧
      Outcome (values docs) (base ++ c :: rest) startsWithSearch
        (nodeAt (base ++ c :: rest) fuel (base.length + 1) n) r := by
  intro fuel
  induction fuel with
  | zero =>
    intro base rest c n cache hw hfuel _
    obtain rfl : rest = [] := List.length_eq_zero_iff.mp (by omega)
    exact ⟨some n, n, cache, rfl, hw, .entered rfl hw rfl⟩
  | succ fuel ih =>
    intro base rest c n cache hw hfuel hcache
    cases rest with
    | nil =>
      refine ⟨some n, n, cache, ?_, hw, .entered ?_ hw rfl⟩
      · rw [findMatchingNode, if_neg (by simp)]
      · rw [nodeAt, if_neg (by simp)]
    | cons r rest =>
      have hlt : base.length + 1 < (base ++ c :: r :: rest).length := by simp
      obtain ⟨n₁, cache₁, cs, hvisit, hchars, hz, hthrough, hi, hcache₁, hsame, hfresh⟩ :=
        visit_spec hw hcache
      have hw₁ : Wf (values docs) base c n₁ := wf_iff.mpr (Or.inr ⟨cs, hchars, hthrough, hz, hi⟩)
      rw [findMatchingNode, if_pos hlt, hvisit, Option.bind_some]
      dsimp only
      have hsplit : base ++ c :: r :: rest = base ++ [c] ++ r :: rest := by simp
      have hlen : base.length + 1 = (base ++ [c]).length := by simp
      have hmatch := matchChars_spec cs (base ++ [c]) (r :: rest) hz
      rw [← hsplit, ← hlen] at hmatch
      have htail : n₁.chars.tail = cs := by rw [hchars]; rfl
      have hbelow : ∀ k, Below (values docs) (base ++ c :: r :: rest) k →
          Below (values docs) (base ++ c :: cs) k := fun k hk =>
        hthrough k (hk.mono (by rw [hsplit]; exact List.prefix_append _ _))
      -- the lookup fails at this node unless the search goes on at a child
      have hnone : ∀ res, matchChars (base ++ c :: r :: rest) cs (base.length + 1) = res →
          (res.1 = true → (base ++ c :: r :: rest).length ≤ res.2 ∨
            getChild (charAt (base ++ c :: r :: rest) res.2) n₁.children = none) →
          nodeAt (base ++ c :: r :: rest) (fuel + 1) (base.length + 1) n = none := by
        rintro ⟨b, d⟩ hres hstop
        rw [nodeAt, if_pos hlt]
        split_ifs with hv
        · rfl
        · rw [← hsame (by simpa using hv), htail, hres]
          cases b with
          | false => rfl
          | true =>
            rcases hstop rfl with h | h
            · exact if_pos h
            · simp only [h]
              split_ifs <;> rfl
      rw [htail]
      rcases hmatch with ⟨t, ht, hm⟩ | ⟨h1, h2, hm⟩ | ⟨h1, h2, d, hd, hm⟩
      · have hP : base ++ c :: r :: rest = base ++ c :: cs ++ t := by rw [ht]; simp
        have hd : base.length + 1 + cs.length = (base ++ c :: cs).length := by
          simp only [List.length_append, List.length_cons]; omega
        rw [hd] at hm
        rw [hm]
        dsimp only
        cases t with
        | nil =>
          -- the node has the whole path
          rw [List.append_nil] at hP ht
          subst ht
          rw [if_pos le_rfl]
          refine ⟨some n₁, n₁, cache₁, rfl, hw₁, .inside (hnone _ hm fun _ => Or.inl le_rfl) hi
            (by simp) ?_ List.prefix_rfl hthrough fun _ => rfl⟩
          rw [hsplit]; exact List.prefix_append _ _
        | cons c' t =>
          have hd' : ¬ (base ++ c :: r :: rest).length ≤ (base ++ c :: cs).length := by
            rw [hP]; simp
          have hchar : charAt (base ++ c :: r :: rest) (base ++ c :: cs).length = c' := by
            rw [hP, charAt_append_cons]
          rw [if_neg hd', hchar]
          cases hchild : getChild c' n₁.children with
          | none =>
            have hno : ∀ k, ¬ Below (values docs) (base ++ c :: r :: rest) k := fun k hk => by
              obtain ⟨m, hm, hmc⟩ := hi.cover k c' (hk.mono (by rw [hP]; simp))
              exact getChild_none hchild m hm hmc
            exact ⟨none, n₁, cache₁, rfl, hw₁, .missed
              (hnone _ hm fun _ => Or.inr (by rw [hchar]; exact hchild))
              (fun k hk => hno k (below_of_at hk)) fun _ => hno⟩
          | some res =>
            obtain ⟨before, child, after⟩ := res
            obtain ⟨hch, hcc⟩ := getChild_some hchild
            have hwc : Wf (values docs) (base ++ c :: cs) c' child := by
              have := hi.wf child (by rw [hch]; simp)
              rwa [headD_eq hcc] at this
            obtain ⟨res, child', cache', h1, h2, h3⟩ := ih (base ++ c :: cs) t c' child cache₁ hwc
              (by have := congrArg List.length ht; simp at this hfuel; omega)
              (hcache₁.mono fun k hk => hk.mono (List.prefix_append _ _))
            rw [← hP] at h1 h3
            dsimp only
            rw [h1, Option.map_some]
            refine ⟨res, _, cache', rfl, wf_iff.mpr (Or.inr ⟨cs, hchars, hthrough, hz,
              hi.replace hch hcc h2⟩), ?_⟩
            cases hv : n.isVirtual with
            | false =>
              have hnode : nodeAt (base ++ c :: r :: rest) (fuel + 1) (base.length + 1) n =
                  nodeAt (base ++ c :: r :: rest) fuel ((base ++ c :: cs).length + 1) child := by
                rw [nodeAt, if_pos hlt, hv, if_neg (by simp), ← hsame hv, htail, hm]
                dsimp only
                rw [if_neg hd', hchar, hchild]
              rw [hnode]
              exact h3
            | true =>
              rw [nodeAt_virtual hv hlt]
              have hf := hfresh hv
              obtain ⟨hcv, hcl⟩ := hf.unread child (by rw [hch]; simp)
              cases t with
              | nil =>
                have hend : nodeAt (base ++ c :: r :: rest) fuel ((base ++ c :: cs).length + 1) child =
                    some child := by
                  cases fuel with
                  | zero => rfl
                  | succ fuel =>
                    rw [nodeAt, if_neg]
                    rw [hP]
                    simp only [List.length_append, List.length_cons, List.length_nil]
                    omega
                rw [hend] at h3
                exact h3.to_fresh hcv hcl hP (hf.other hi hch hcc)
              | cons e t =>
                have hnode : nodeAt (base ++ c :: r :: rest) fuel ((base ++ c :: cs).length + 1) child =
                    none := by
                  cases fuel with
                  | zero =>
                    have := congrArg List.length ht
                    simp only [List.length_append, List.length_cons] at this hfuel
                    omega
                  | succ fuel =>
                    refine nodeAt_virtual hcv ?_
                    rw [hP]
                    simp only [List.length_append, List.length_cons]
                    omega
                rw [hnode] at h3
                exact h3
      · -- the text ends among the characters
        obtain ⟨e, u, rfl⟩ : ∃ e u, cs = r :: rest ++ e :: u := by
          obtain ⟨u, rfl⟩ := h1
          cases u with
          | nil => exact absurd (List.append_nil _).symm h2
          | cons e u => exact ⟨e, u, rfl⟩
        have hno : ∀ k, ¬ At (values docs) (base ++ c :: r :: rest) k := fun k hk =>
          hk.not_below (by simp) (hbelow k (below_of_at hk))
        have hstop := hnone _ hm (fun h => by cases h)
        rw [hm]
        cases startsWithSearch with
        | false =>
          refine ⟨none, n₁, cache₁, by simp, hw₁, .missed hstop hno fun h => by cases h⟩
        | true =>
          refine ⟨some n₁, n₁, cache₁, by simp, hw₁, .inside hstop hi (by simp) ?_ ?_ hthrough
            fun h => by cases h⟩
          · rw [hsplit]; exact List.prefix_append _ _
          · exact ⟨e :: u, by simp⟩
      · -- a character differs
        have hno : ∀ k, ¬ Below (values docs) (base ++ c :: r :: rest) k := fun k hk => by
          obtain ⟨v, hv, hp⟩ := hk
          obtain ⟨w, hv', hp'⟩ := hbelow k ⟨v, hv, hp⟩
          obtain rfl := Option.some.inj (hv.symm.trans hv')
          rcases List.prefix_or_prefix_of_prefix hp hp' with h | h
          · exact h1 (by simpa [List.prefix_append_right_inj, List.cons_prefix_cons] using h)
          · exact h2 (by simpa [List.prefix_append_right_inj, List.cons_prefix_cons] using h)
        rw [hm]
        refine ⟨none, n₁, cache₁, ?_, hw₁, .missed (hnone _ hm fun h => by cases h)
          (fun k hk => hno k (below_of_at hk)) fun _ => hno⟩
        show (if (base ++ c :: r :: rest).length ≤ d ∧ startsWithSearch = true then _ else _) = _
        rw [if_neg fun h => absurd h.1 (by omega)]

/-! ### From the root -/

/-- **The trie**: its root is read and has no characters of its own. -/
structure Rooted (docs : Documents) (root : Node) : Prop where
  chars : root.chars = []
  inside : Inside (values docs) [] root

theorem visit_root {root : Node} (h : Rooted docs root) (cache : Cache) :
    visit docs root cache = some (root, cache) := by
  rw [visit, h.inside.notVirtual, if_neg (by simp)]

theorem emptyCache_ok (scope : ℕ → Prop) : CacheOk docs .empty scope := Or.inl rfl

theorem Rooted.replace {root child child' : Node} {before after : List Node} {c : UInt8}
    (h : Rooted docs root) (hn : root.children = before ++ child :: after)
    (hc : child.chars.head? = some c) (hw : Wf (values docs) [] c child') :
    Rooted docs { root with children := before ++ child' :: after } :=
  ⟨h.chars, h.inside.replace hn hc hw⟩

/-- The search from the root, for a text that is not empty. -/
theorem find_root (startsWithSearch : Bool) {root : Node} (h : Rooted docs root) (c : UInt8)
    (rest : Str) : ∃ r root' cache', findMatchingNode docs (c :: rest) startsWithSearch
      (c :: rest).length 0 root .empty = some (r, root', cache') ∧ Rooted docs root' ∧
      Outcome (values docs) (c :: rest) startsWithSearch (nodeAt (c :: rest) (c :: rest).length 0 root)
        r := by
  have hchar : charAt (c :: rest) 0 = c := rfl
  have hmatch : matchChars (c :: rest) root.chars.tail 0 = (true, 0) := by rw [h.chars]; rfl
  rw [List.length_cons, findMatchingNode, if_pos (by simp), visit_root h, Option.bind_some, nodeAt,
    if_pos (by simp), h.inside.notVirtual, if_neg (by simp)]
  dsimp only
  rw [hmatch]
  dsimp only
  rw [if_neg (by simp), if_neg (by simp), hchar]
  cases hchild : getChild c root.children with
  | none =>
    have hno : ∀ k, ¬ Below (values docs) (c :: rest) k := fun k hk => by
      obtain ⟨m, hm, hmc⟩ := h.inside.cover k c (hk.mono (by simp))
      exact getChild_none hchild m hm hmc
    exact ⟨none, root, .empty, rfl, h, .missed rfl (fun k hk => hno k (below_of_at hk)) fun _ => hno⟩
  | some res =>
    obtain ⟨before, child, after⟩ := res
    obtain ⟨hch, hcc⟩ := getChild_some hchild
    have hwc : Wf (values docs) [] c child := by
      have := h.inside.wf child (by rw [hch]; simp)
      rwa [headD_eq hcc] at this
    obtain ⟨r, child', cache', h1, h2, h3⟩ := find_spec startsWithSearch
      rest.length [] rest c child .empty hwc le_rfl
      (emptyCache_ok _)
    refine ⟨r, _, cache', ?_, h.replace hch hcc h2, h3⟩
    exact congrArg (Option.map _) h1

/-- `findLex` goes down the trie as well; it leaves every node as it should be. -/
theorem findLex_wf {cmpVal : Str} {cmpType : ComparisonType} : ∀ (fuel depthIndex : ℕ) (base : Str)
    (c : UInt8) (n : Node) (cache : Cache), Wf (values docs) base c n →
    CacheOk docs cache (Beyond (values docs) (base ++ [c])) →
    ∃ found n' cache', findLexFrom docs cmpVal cmpType fuel depthIndex n cache =
      some (found, n', cache') ∧ Wf (values docs) base c n' := by
  intro fuel
  induction fuel with
  | zero => exact fun depthIndex base c n cache hw _ => ⟨[], n, cache, rfl, hw⟩
  | succ fuel ih =>
    intro depthIndex base c n cache hw hcache
    rw [findLexFrom]
    split_ifs with hlt
    · obtain ⟨n₁, cache₁, cs, hvisit, hchars, hz, hthrough, hi, hcache₁, -, -⟩ :=
        visit_spec hw hcache
      have hw₁ : Wf (values docs) base c n₁ := wf_iff.mpr (Or.inr ⟨cs, hchars, hthrough, hz, hi⟩)
      rw [hvisit, Option.bind_some]
      dsimp only
      split
      · exact ⟨_, n₁, cache₁, rfl, hw₁⟩
      · rename_i d _
        generalize (if 1 < n₁.chars.length then d - 1 else d) = depthIndex'
        split_ifs with hend
        · exact ⟨_, n₁, cache₁, rfl, hw₁⟩
        · cases hchild : getChild (charAt cmpVal depthIndex') n₁.children with
          | none => exact ⟨_, n₁, cache₁, rfl, hw₁⟩
          | some res =>
            obtain ⟨before, child, after⟩ := res
            obtain ⟨hch, hcc⟩ := getChild_some hchild
            have hwc := hi.wf child (by rw [hch]; simp)
            rw [headD_eq hcc] at hwc
            obtain ⟨found, child', cache', h1, h2⟩ := ih (depthIndex' + 1) (base ++ c :: cs) _ child
              cache₁ hwc (hcache₁.mono fun k hk => hk.mono (List.prefix_append _ _))
            dsimp only
            rw [h1]
            exact ⟨_, _, cache', rfl, wf_iff.mpr (Or.inr ⟨cs, hchars, hthrough, hz,
              hi.replace hch hcc h2⟩)⟩
    · exact ⟨[], n, cache, rfl, hw⟩

theorem findLex_root {root : Node} (h : Rooted docs root) (cmpVal : Str) (cmpType : ComparisonType) :
    ∃ found root' cache', findLexFrom docs cmpVal cmpType cmpVal.length 0 root .empty =
      some (found, root', cache') ∧ Rooted docs root' := by
  cases cmpVal with
  | nil => exact ⟨[], root, .empty, rfl, h⟩
  | cons c rest =>
    have hlex : lexChars (c :: rest) cmpType root.chars.tail 0 = (none, 0) := by rw [h.chars]; rfl
    have hshort : ¬ 1 < root.chars.length := by rw [h.chars]; simp
    rw [List.length_cons, findLexFrom, if_pos (by simp), visit_root h, Option.bind_some]
    dsimp only
    rw [hlex]
    dsimp only
    rw [if_neg hshort, if_neg (by simp)]
    cases hchild : getChild (charAt (c :: rest) 0) root.children with
    | none => exact ⟨_, root, .empty, rfl, h⟩
    | some res =>
      obtain ⟨before, child, after⟩ := res
      obtain ⟨hch, hcc⟩ := getChild_some hchild
      have hwc := h.inside.wf child (by rw [hch]; simp)
      rw [headD_eq hcc] at hwc
      obtain ⟨found, child', cache', h1, h2⟩ := @findLex_wf docs (c :: rest) cmpType
        rest.length 1 [] _ child .empty hwc (emptyCache_ok _)
      refine ⟨lexHere (c :: rest) cmpType 0 root ++ found, _, cache', ?_, h.replace hch hcc h2⟩
      exact congrArg (Option.map _) h1

end Joda.Index.TrieSearch
