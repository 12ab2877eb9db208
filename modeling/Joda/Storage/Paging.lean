import Joda.Lib.Fuel
import Mathlib.Data.List.Nodup

/-! # Pages of a storage

`stringify` and `getRaw` walk through the containers of a storage and take documents `start..last` of
the whole. A container is the list of its documents, `text` and `copy` are what is returned of a
document. The documents of an evicted container are read again from their origins before
(`reparseSubset`, see `Storage.Reparse`); here they are there. The loops do not get past an empty
container, so they are functions of their fuel.

A page is right if the documents it is made of are exactly those with the numbers `start..last`;
to say so for documents that look alike the theorems are about documents that carry their number
(`numbered`). `stringify_pages` and `getRaw_pages` say exactly when that is so. -/

namespace Joda.Storage.Paging

open Joda.Lib.Fuel

variable {δ τ : Type}

/-! ### Containers -/

namespace JSONContainer

/-- `JSONContainer::stringify`: `reserve` throws if `start` is beyond the last document by more than
one. -/
def stringify (text : δ → τ) (docs : List δ) (start last : ℕ) : Option (List τ) :=
  if docs = [] then some []
  else
    let last := min last (docs.length - 1)
    if last + 1 < start then none
    else some (((docs.drop start).take (last + 1 - start)).map text)

/-- `JSONContainer::getRaw` -/
def getRaw (copy : δ → τ) (docs : List δ) (start last : ℕ) : List τ :=
  if docs = [] then []
  else
    let last := min last (docs.length - 1)
    if last < start then [] else ((docs.drop start).take (last + 1 - start)).map copy

end JSONContainer

/-! ### The storage -/

/-- `docCount` -/
def docCount (container : List (List δ)) : ℕ := container.flatten.length

/-- The first loop: the containers from the one with document `start` on, and the number of documents
before it; `none` if the containers run out. -/
def browse (start : ℕ) : ℕ → List (List δ) → Option (ℕ × List (List δ))
  | _, [] => none
  | skippedSize, c :: cs =>
    if c.length + skippedSize ≤ start then browse start (skippedSize + c.length) cs
    else some (skippedSize, c :: cs)

/-- The second loop of `stringify`. -/
def collectStrings (text : δ → τ) (start count : ℕ) :
    ℕ → ℕ → List (List δ) → List τ → Option (List τ)
  | 0, _, _, _ => none
  | fuel + 1, skippedSize, container, ret =>
    if ret.length < count then
      let contStart := if skippedSize < start then start - skippedSize else 0
      let contEnd := contStart + count - ret.length - 1
      match container with
      | [] => some ret
      | c :: cs =>
        if c.length ≠ 0 then
          (JSONContainer.stringify text c contStart contEnd).bind fun tmp =>
            collectStrings text start count fuel (skippedSize + c.length) cs (ret ++ tmp)
        else collectStrings text start count fuel skippedSize (c :: cs) ret
    else some ret

/-- **`JSONStorage::stringify`** -/
def stringify (text : δ → τ) (fuel : ℕ) (container : List (List δ)) (start last : ℕ) :
    Option (List τ) :=
  if docCount container = 0 then some []
  else
    let last := min last (docCount container - 1)
    if last < start then some []
    else (browse start 0 container).bind fun it =>
      collectStrings text start (last - start + 1) fuel it.1 it.2 []

/-- The second loop of `getRaw`. -/
def collectRaws (copy : δ → τ) (start count skippedSize : ℕ) :
    ℕ → List (List δ) → List τ → Option (List τ)
  | 0, _, _ => none
  | fuel + 1, container, ret =>
    if ret.length < count then
      let contStart := max (start - skippedSize) 0
      let contEnd := contStart + count - ret.length - 1
      match container with
      | [] => some ret
      | c :: cs =>
        if c.length ≠ 0 then
          collectRaws copy start count skippedSize fuel cs
            (ret ++ JSONContainer.getRaw copy c contStart contEnd)
        else collectRaws copy start count skippedSize fuel (c :: cs) ret
    else some ret

/-- **`JSONStorage::getRaw`** -/
def getRaw (copy : δ → τ) (fuel : ℕ) (container : List (List δ)) (start last : ℕ) :
    Option (List τ) :=
  if docCount container = 0 then some []
  else
    let last := min last (docCount container - 1)
    if last < start then some []
    else (browse start 0 container).bind fun it =>
      collectRaws copy start (last - start + 1) it.1 fuel it.2 []

/-! ### Pages -/

/-- **Documents `start..last` of the storage.** -/
def page (container : List (List δ)) (start last : ℕ) : List δ :=
  (container.flatten.drop start).take (last + 1 - start)

/-- Consecutive pages make up one page. -/
theorem page_append (container : List (List δ)) {a b c : ℕ} (hab : a ≤ b + 1) (hbc : b ≤ c) :
    page container a b ++ page container (b + 1) c = page container a c := by
  have hlen : c + 1 - a = (b + 1 - a) + (c + 1 - (b + 1)) := by omega
  have hdrop : a + (b + 1 - a) = b + 1 := by omega
  unfold page
  rw [hlen, List.take_add, List.drop_drop, hdrop]

/-- The documents with their numbers. -/
def numbered : ℕ → List (List δ) → List (List (δ × ℕ))
  | _, [] => []
  | n, c :: cs => c.zipIdx n :: numbered (n + c.length) cs

theorem numbered_flatten : ∀ (container : List (List δ)) (n : ℕ),
    (numbered n container).flatten = container.flatten.zipIdx n
  | [], _ => rfl
  | c :: cs, n => by
    rw [numbered, List.flatten_cons, numbered_flatten cs, List.flatten_cons, List.zipIdx_append]

theorem numbered_map_fst : ∀ (container : List (List δ)) (n : ℕ),
    (numbered n container).map (List.map Prod.fst) = container
  | [], _ => rfl
  | c :: cs, n => by
    rw [numbered, List.map_cons, numbered_map_fst cs, List.zipIdx_map_fst]

theorem numbered_nodup (container : List (List δ)) : (numbered 0 container).flatten.Nodup := by
  rw [numbered_flatten]
  refine List.Nodup.of_map Prod.snd ?_
  rw [List.zipIdx_map_snd]
  exact List.nodup_range'

/-! ### The walk through the containers -/

/-- `need` documents, from each container those after the first `k`; an empty container is the end of
it. -/
def takeDocs (k : ℕ) : ℕ → List (List δ) → Option (List δ)
  | _, [] => some []
  | need, c :: cs =>
    if need = 0 then some []
    else if c = [] then none
    else (takeDocs k (need - (c.length - k)) cs).map fun l => (c.drop k).take need ++ l

theorem takeDocs_zero (k : ℕ) (cs : List (List δ)) : takeDocs k 0 cs = some [] := by
  cases cs with
  | nil => rfl
  | cons c cs => rw [takeDocs, if_pos rfl]

theorem container_getRaw_eq (copy : δ → τ) {c : List δ} (hc : c ≠ []) {k need : ℕ}
    (hn : 0 < need) :
    JSONContainer.getRaw copy c k (k + need - 1) = ((c.drop k).take need).map copy := by
  have hlen := List.length_pos_iff.mpr hc
  unfold JSONContainer.getRaw
  rw [if_neg hc]
  simp only
  split_ifs with hlt
  · have hk : c.length ≤ k := by omega
    simp [List.drop_eq_nil_of_le hk]
  · rcases Nat.le_total (k + need) c.length with h | h
    · have hmin : min (k + need - 1) (c.length - 1) + 1 - k = need := by omega
      rw [hmin]
    · have hmin : min (k + need - 1) (c.length - 1) + 1 - k = c.length - k := by omega
      rw [hmin, List.take_of_length_le (by simp), List.take_of_length_le (by simp; omega)]

theorem container_stringify_eq (text : δ → τ) {c : List δ} {k need : ℕ} (hk : k < c.length)
    (hn : 0 < need) :
    JSONContainer.stringify text c k (k + need - 1) = some (((c.drop k).take need).map text) := by
  have hc : c ≠ [] := by rintro rfl; simp at hk
  have h := container_getRaw_eq text hc (k := k) hn
  unfold JSONContainer.getRaw at h
  unfold JSONContainer.stringify
  rw [if_neg hc] at h ⊢
  simp only at h ⊢
  rw [if_neg (by omega)] at h
  rw [if_neg (by omega), h]

theorem collectRaws_gives (copy : δ → τ) (start count skipped : ℕ) :
    ∀ (cs : List (List δ)) (ret : List τ),
      Gives (fun n => collectRaws copy start count skipped n cs ret)
        ((takeDocs (start - skipped) (count - ret.length) cs).map fun l => ret ++ l.map copy) := by
  intro cs
  induction cs with
  | nil =>
    intro ret
    refine Gives.of_succ (g := fun _ => some ret) rfl (fun n => ?_) (by
      rw [takeDocs, Option.map_some, List.map_nil, List.append_nil]; exact Gives.some ret)
    rw [collectRaws]
    split_ifs <;> rfl
  | cons c cs ih =>
    intro ret
    by_cases hlt : ret.length < count
    · have hneed : count - ret.length ≠ 0 := by omega
      rw [takeDocs, if_neg hneed]
      by_cases hc : c = []
      · -- an empty container is never left
        rw [if_pos hc]
        refine ⟨fun a ha => (nomatch ha), fun _ n => ?_⟩
        induction n with
        | zero => rfl
        | succ n ihn =>
          rw [hc] at ihn ⊢
          show collectRaws copy start count skipped (n + 1) ([] :: cs) ret = none
          rw [collectRaws, if_pos hlt]
          exact ihn
      · rw [if_neg hc]
        have hlen : c.length ≠ 0 := fun h => hc (List.eq_nil_of_length_eq_zero h)
        have hend : start - skipped + count - ret.length - 1 =
            start - skipped + (count - ret.length) - 1 := by omega
        refine Gives.of_succ (g := fun n => collectRaws copy start count skipped n cs
          (ret ++ ((c.drop (start - skipped)).take (count - ret.length)).map copy)) rfl
          (fun n => ?_) ?_
        · show collectRaws copy start count skipped (n + 1) (c :: cs) ret = _
          rw [collectRaws, if_pos hlt]
          simp only [hlen, ne_eq, not_false_eq_true, if_true, Nat.max_zero]
          rw [hend, container_getRaw_eq copy hc (by omega)]
        · have h := ih (ret ++ ((c.drop (start - skipped)).take (count - ret.length)).map copy)
          have hrest : count - (ret ++ ((c.drop (start - skipped)).take
              (count - ret.length)).map copy).length =
              count - ret.length - (c.length - (start - skipped)) := by
            simp only [List.length_append, List.length_map, List.length_take, List.length_drop]
            omega
          rw [hrest] at h
          simpa [Option.map_map, Function.comp_def] using h
    · have hneed : count - ret.length = 0 := by omega
      rw [hneed, takeDocs_zero]
      refine Gives.of_succ (g := fun _ => some ret) rfl (fun n => ?_)
        (by simpa using Gives.some ret)
      rw [collectRaws, if_neg hlt]

/-- Where the documents before the container are counted, the next one is read from its start. -/
theorem collectStrings_gives (text : δ → τ) (start count : ℕ) :
    ∀ (cs : List (List δ)) (skipped : ℕ) (ret : List τ), start ≤ skipped →
      Gives (fun n => collectStrings text start count n skipped cs ret)
        ((takeDocs 0 (count - ret.length) cs).map fun l => ret ++ l.map text) := by
  intro cs
  induction cs with
  | nil =>
    intro skipped ret _
    refine Gives.of_succ (g := fun _ => some ret) rfl (fun n => ?_) (by
      rw [takeDocs, Option.map_some, List.map_nil, List.append_nil]; exact Gives.some ret)
    rw [collectStrings]
    split_ifs <;> rfl
  | cons c cs ih =>
    intro skipped ret hs
    by_cases hlt : ret.length < count
    · have hneed : count - ret.length ≠ 0 := by omega
      rw [takeDocs, if_neg hneed]
      by_cases hc : c = []
      · rw [if_pos hc]
        refine ⟨fun a ha => (nomatch ha), fun _ n => ?_⟩
        induction n with
        | zero => rfl
        | succ n ihn =>
          rw [hc] at ihn ⊢
          show collectStrings text start count (n + 1) skipped ([] :: cs) ret = none
          rw [collectStrings, if_pos hlt]
          exact ihn
      · rw [if_neg hc]
        have hlen : c.length ≠ 0 := fun h => hc (List.eq_nil_of_length_eq_zero h)
        have hend : 0 + count - ret.length - 1 = 0 + (count - ret.length) - 1 := by omega
        refine Gives.of_succ (g := fun n => collectStrings text start count n (skipped + c.length)
          cs (ret ++ ((c.drop 0).take (count - ret.length)).map text)) rfl (fun n => ?_) ?_
        · show collectStrings text start count (n + 1) skipped (c :: cs) ret = _
          rw [collectStrings, if_pos hlt]
          simp only [if_neg (not_lt.mpr hs), hlen, ne_eq, not_false_eq_true, if_true]
          rw [hend, container_stringify_eq text (by omega) (by omega), Option.bind_some]
        · have h := ih (skipped + c.length)
            (ret ++ ((c.drop 0).take (count - ret.length)).map text) (by omega)
          have hrest : count - (ret ++ ((c.drop 0).take (count - ret.length)).map text).length =
              count - ret.length - (c.length - 0) := by
            simp only [List.length_append, List.length_map, List.length_take, List.length_drop]
            omega
          rw [hrest] at h
          simpa [Option.map_map, Function.comp_def] using h
    · have hneed : count - ret.length = 0 := by omega
      rw [hneed, takeDocs_zero]
      refine Gives.of_succ (g := fun _ => some ret) rfl (fun n => ?_)
        (by simpa using Gives.some ret)
      rw [collectStrings, if_neg hlt]

section Walk

variable (out : δ → τ) {pre : List (List δ)} {c : List δ} {post : List (List δ)} {start last : ℕ}
  (h1 : docCount pre ≤ start) (h2 : start < docCount pre + c.length) (hl : start ≤ last)

/-- What a function of the storage gives that takes the documents of the container with document `start`
from there on, and of each later container those after the first `k`. -/
def walk (k start last : ℕ) (pre : List (List δ)) (c : List δ) (post : List (List δ)) :
    Option (List δ) :=
  let count := min last (docCount (pre ++ c :: post) - 1) - start + 1
  (takeDocs k (count - (c.length - (start - docCount pre))) post).map fun l =>
    (c.drop (start - docCount pre)).take count ++ l

theorem docCount_append (cs ds : List (List δ)) : docCount (cs ++ ds) = docCount cs + docCount ds := by
  rw [docCount, List.flatten_append, List.length_append]
  rfl

theorem docCount_cons (c : List δ) (cs : List (List δ)) :
    docCount (c :: cs) = c.length + docCount cs := by
  rw [docCount, List.flatten_cons, List.length_append]
  rfl

include h1 h2

/-- The container with document `start` is found. -/
theorem browse_eq : browse start 0 (pre ++ c :: post) = some (docCount pre, c :: post) := by
  have h : ∀ (pre : List (List δ)) (skipped : ℕ), skipped + docCount pre ≤ start →
      start < skipped + docCount pre + c.length →
      browse start skipped (pre ++ c :: post) = some (skipped + docCount pre, c :: post) := by
    intro pre
    induction pre with
    | nil =>
      intro skipped _ hlt
      rw [show docCount ([] : List (List δ)) = 0 from rfl] at hlt ⊢
      rw [List.nil_append, browse, if_neg (by omega), Nat.add_zero]
    | cons d pre ih =>
      intro skipped hle hlt
      rw [docCount_cons] at hle hlt ⊢
      rw [List.cons_append, browse, if_pos (by omega), ih (skipped + d.length) (by omega) (by omega),
        Nat.add_assoc]
  have h0 := h pre 0 (by omega) (by omega)
  rwa [Nat.zero_add] at h0

include hl

theorem getRaw_gives : Gives (fun n => getRaw out n (pre ++ c :: post) start last)
    ((walk (start - docCount pre) start last pre c post).map (List.map out)) := by
  have htotal : docCount (pre ++ c :: post) = docCount pre + (c.length + docCount post) := by
    rw [docCount_append, docCount_cons]
  have hraw : (fun n => getRaw out n (pre ++ c :: post) start last) = fun n =>
      collectRaws out start (min last (docCount (pre ++ c :: post) - 1) - start + 1) (docCount pre) n
        (c :: post) [] := by
    funext n
    unfold getRaw
    rw [if_neg (by omega), browse_eq h1 h2]
    simp only
    rw [if_neg (by omega), Option.bind_some]
  rw [hraw]
  have h := collectRaws_gives out start (min last (docCount (pre ++ c :: post) - 1) - start + 1)
    (docCount pre) (c :: post) []
  have hc : c ≠ [] := by rintro rfl; simp at h2; omega
  rw [takeDocs, if_neg (by simp), if_neg hc, Option.map_map] at h
  rw [walk, Option.map_map]
  exact h

theorem stringify_gives : Gives (fun n => stringify out n (pre ++ c :: post) start last)
    ((walk 0 start last pre c post).map (List.map out)) := by
  have htotal : docCount (pre ++ c :: post) = docCount pre + (c.length + docCount post) := by
    rw [docCount_append, docCount_cons]
  obtain ⟨count, hcount⟩ : ∃ count,
    count = min last (docCount (pre ++ c :: post) - 1) - start + 1 := ⟨_, rfl⟩
  have hc : c.length ≠ 0 := by omega
  -- the first container is read from document `start` on
  have hstart : (if docCount pre < start then start - docCount pre else 0) =
      start - docCount pre := by split_ifs <;> omega
  have hend : start - docCount pre + count - 0 - 1 = start - docCount pre + count - 1 := by omega
  refine Gives.of_succ (g := fun n => collectStrings out start count n (docCount pre + c.length) post
    ([] ++ ((c.drop (start - docCount pre)).take count).map out)) ?_ (fun n => ?_) ?_
  · show stringify out 0 (pre ++ c :: post) start last = none
    unfold stringify
    rw [if_neg (by omega), browse_eq h1 h2]
    simp only
    rw [if_neg (by omega)]
    rfl
  · show stringify out (n + 1) (pre ++ c :: post) start last = _
    unfold stringify
    rw [if_neg (by omega), browse_eq h1 h2]
    simp only
    rw [if_neg (by omega), Option.bind_some, ← hcount, collectStrings,
      if_pos (by rw [List.length_nil]; omega)]
    simp only [hc, ne_eq, not_false_eq_true, if_true]
    rw [hstart, List.length_nil, hend, container_stringify_eq out (by omega) (by omega),
      Option.bind_some]
  · have h := collectStrings_gives out start count post (docCount pre + c.length)
      ([] ++ ((c.drop (start - docCount pre)).take count).map out) (by omega)
    have hrest : count - ([] ++ ((c.drop (start - docCount pre)).take count).map out).length =
        count - (c.length - (start - docCount pre)) := by
      simp only [List.nil_append, List.length_map, List.length_take, List.length_drop]
      omega
    rw [hrest] at h
    rw [walk, Option.map_map, ← hcount]
    simpa [Function.comp_def] using h

end Walk

/-! ### The exact condition -/

/-- `offset` documents lie before some container, or there are `offset` documents. -/
def Boundary (container : List (List δ)) (offset : ℕ) : Prop :=
  ∃ pre post, container = pre ++ post ∧ docCount pre = offset

/-- `offset` documents lie before an empty container. -/
def EmptyAt (container : List (List δ)) (offset : ℕ) : Prop :=
  ∃ pre post, container = pre ++ [] :: post ∧ docCount pre = offset

/-- There are documents of the page on both sides of `offset`. -/
def Within (container : List (List δ)) (start last offset : ℕ) : Prop :=
  start < offset ∧ offset ≤ last ∧ offset < docCount container

/-- No empty container lies inside the page. -/
def NoGap (container : List (List δ)) (start last : ℕ) : Prop :=
  ∀ offset, EmptyAt container offset → ¬ Within container start last offset

/-- The page lies in one container. -/
def InOne (container : List (List δ)) (start last : ℕ) : Prop :=
  ∀ offset, Boundary container offset → ¬ Within container start last offset

/-- No empty container lies before `need` documents are there. -/
def Gapless (need : ℕ) (container : List (List δ)) : Prop :=
  ∀ offset, EmptyAt container offset → need ≤ offset

theorem gapless_cons {need : ℕ} {c : List δ} {cs : List (List δ)} (hc : c ≠ []) :
    Gapless need (c :: cs) ↔ Gapless (need - c.length) cs := by
  constructor
  · rintro h offset ⟨pre, post, rfl, rfl⟩
    have hcs := h (docCount (c :: pre)) ⟨c :: pre, post, rfl, rfl⟩
    rw [docCount_cons] at hcs
    omega
  · rintro h offset ⟨pre, post, he, rfl⟩
    cases pre with
    | nil =>
      rw [List.nil_append, List.cons.injEq] at he
      exact absurd he.1 hc
    | cons d pre =>
      rw [List.cons_append, List.cons.injEq] at he
      obtain ⟨rfl, rfl⟩ := he
      have hcs := h (docCount pre) ⟨pre, post, rfl, rfl⟩
      rw [docCount_cons]
      omega

/-- Read from their starts, the containers give their first documents, if there is no gap. -/
theorem takeDocs_eq_some : ∀ {need : ℕ} {cs : List (List δ)} {l : List δ},
    takeDocs 0 need cs = some l ↔ Gapless need cs ∧ l = cs.flatten.take need
  | need, [], l => by
    have hg : Gapless need ([] : List (List δ)) := by
      rintro offset ⟨pre, post, he, -⟩
      simp at he
    simp [takeDocs, hg, eq_comm]
  | need, c :: cs, l => by
    rw [takeDocs]
    by_cases hn : need = 0
    · have hg : Gapless need (c :: cs) := fun offset _ => by omega
      subst hn
      simp [hg, eq_comm]
    · rw [if_neg hn]
      by_cases hc : c = []
      · rw [if_pos hc]
        refine ⟨fun h => (nomatch h), fun ⟨hg, _⟩ => ?_⟩
        have h0 := hg 0 ⟨[], cs, by rw [hc]; rfl, rfl⟩
        omega
      · rw [if_neg hc, gapless_cons hc, Option.map_eq_some_iff]
        have htake : (c :: cs).flatten.take need =
            (c.drop 0).take need ++ cs.flatten.take (need - c.length) := by
          rw [List.flatten_cons, List.take_append, List.drop_zero]
        rw [htake, Nat.sub_zero]
        constructor
        · rintro ⟨l', hl', rfl⟩
          obtain ⟨hg, rfl⟩ := takeDocs_eq_some.mp hl'
          exact ⟨hg, rfl⟩
        · rintro ⟨hg, rfl⟩
          exact ⟨_, takeDocs_eq_some.mpr ⟨hg, rfl⟩, rfl⟩

theorem takeDocs_mem {k : ℕ} {x : δ} : ∀ {need : ℕ} {cs : List (List δ)} {l : List δ},
    takeDocs k need cs = some l → x ∈ l → ∃ c ∈ cs, x ∈ c.drop k
  | need, [], l, h, hx => by
    rw [takeDocs, Option.some.injEq] at h
    rw [← h] at hx
    cases hx
  | need, c :: cs, l, h, hx => by
    rw [takeDocs] at h
    split_ifs at h with hn hc
    · rw [← Option.some.inj h] at hx
      cases hx
    · obtain ⟨l', hl', rfl⟩ := Option.map_eq_some_iff.mp h
      rcases List.mem_append.mp hx with hx | hx
      · exact ⟨c, List.mem_cons_self, List.mem_of_mem_take hx⟩
      · obtain ⟨d, hd, hxd⟩ := takeDocs_mem hl' hx
        exact ⟨d, List.mem_cons_of_mem _ hd, hxd⟩

/-- Read from a later place, the first container already gives a wrong document. -/
theorem takeDocs_wrong {k need : ℕ} {cs : List (List δ)} (hk : 0 < k) (hn : 0 < need)
    (hd : 0 < docCount cs) (hnodup : cs.flatten.Nodup) :
    takeDocs k need cs ≠ some (cs.flatten.take need) := by
  intro h
  cases cs with
  | nil => exact absurd hd (lt_irrefl 0)
  | cons c cs =>
    cases c with
    | nil =>
      rw [takeDocs, if_neg (by omega), if_pos rfl] at h
      cases h
    | cons x c =>
      have hx : x ∈ ((x :: c) :: cs).flatten.take need := by
        obtain ⟨n, rfl⟩ : ∃ n, need = n + 1 := ⟨need - 1, by omega⟩
        simp
      obtain ⟨d, hd, hxd⟩ := takeDocs_mem h hx
      rw [List.flatten_cons, List.cons_append, List.nodup_cons, List.mem_append, not_or] at hnodup
      rcases List.mem_cons.mp hd with rfl | hd
      · obtain ⟨j, rfl⟩ : ∃ j, k = j + 1 := ⟨k - 1, by omega⟩
        rw [List.drop_succ_cons] at hxd
        exact hnodup.1.1 (List.mem_of_mem_drop hxd)
      · exact hnodup.1.2 (List.mem_flatten.mpr ⟨d, hd, List.mem_of_mem_drop hxd⟩)

section Exact

variable {pre : List (List δ)} {c : List δ} {post : List (List δ)} {start last : ℕ}

/-- What lies before an offset: not the container `c`, or all of it. -/
theorem before_or_after {p q : List (List δ)} (h : pre ++ c :: post = p ++ q) :
    docCount p ≤ docCount pre ∨ ∃ p', p = pre ++ c :: p' ∧ post = p' ++ q := by
  rcases List.append_eq_append_iff.mp h with ⟨r, rfl, hr⟩ | ⟨r, rfl, -⟩
  · cases r with
    | nil => exact Or.inl (by rw [List.append_nil])
    | cons d r =>
      rw [List.cons_append, List.cons.injEq] at hr
      obtain ⟨rfl, hr⟩ := hr
      exact Or.inr ⟨r, rfl, hr⟩
  · exact Or.inl (by rw [docCount_append]; omega)

variable (h1 : docCount pre ≤ start) (h2 : start < docCount pre + c.length) (hl : start ≤ last)

include h1 h2

theorem boundary_start_iff : Boundary (pre ++ c :: post) start ↔ docCount pre = start := by
  constructor
  · rintro ⟨p, q, he, hp⟩
    rcases before_or_after he with h | ⟨p', rfl, -⟩
    · omega
    · rw [docCount_append, docCount_cons] at hp
      omega
  · exact fun h => ⟨pre, c :: post, rfl, h⟩

include hl

/-- The documents of the page that are not in the first container. -/
theorem inOne_iff : InOne (pre ++ c :: post) start last ↔
    min last (docCount (pre ++ c :: post) - 1) - start + 1 - (c.length - (start - docCount pre)) =
      0 := by
  have htotal : docCount (pre ++ c :: post) = docCount pre + (c.length + docCount post) := by
    rw [docCount_append, docCount_cons]
  constructor
  · intro h
    have hw := h (docCount (pre ++ [c])) ⟨pre ++ [c], post, by simp, rfl⟩
    have hc : docCount (pre ++ [c]) = docCount pre + c.length := by
      rw [docCount_append, docCount_cons]
      rfl
    rw [Within, hc] at hw
    omega
  · rintro h offset ⟨p, q, he, rfl⟩ ⟨hs, hle, hlt⟩
    rcases before_or_after he with hp | ⟨p', rfl, -⟩
    · omega
    · have hp : docCount (pre ++ c :: p') = docCount pre + (c.length + docCount p') := by
        rw [docCount_append, docCount_cons]
      omega

theorem noGap_iff : NoGap (pre ++ c :: post) start last ↔
    Gapless (min last (docCount (pre ++ c :: post) - 1) - start + 1 -
      (c.length - (start - docCount pre))) post := by
  have htotal : docCount (pre ++ c :: post) = docCount pre + (c.length + docCount post) := by
    rw [docCount_append, docCount_cons]
  constructor
  · rintro h offset ⟨p, q, rfl, rfl⟩
    have hw := h (docCount (pre ++ c :: p)) ⟨pre ++ c :: p, q, by simp, rfl⟩
    have hp : docCount (pre ++ c :: p) = docCount pre + (c.length + docCount p) := by
      rw [docCount_append, docCount_cons]
    have hpost : docCount (p ++ [] :: q) = docCount p + docCount q := by
      rw [docCount_append, docCount_cons, List.length_nil, Nat.zero_add]
    rw [Within, hp] at hw
    omega
  · rintro h offset ⟨p, q, he, rfl⟩ ⟨hs, hle, hlt⟩
    rcases before_or_after he with hp | ⟨p', rfl, hq⟩
    · omega
    · have hneed := h (docCount p') ⟨p', q, hq, rfl⟩
      have hp : docCount (pre ++ c :: p') = docCount pre + (c.length + docCount p') := by
        rw [docCount_append, docCount_cons]
      omega

theorem page_eq : page (pre ++ c :: post) start last =
    let count := min last (docCount (pre ++ c :: post) - 1) - start + 1
    (c.drop (start - docCount pre)).take count ++
      post.flatten.take (count - (c.length - (start - docCount pre))) := by
  have htotal : docCount (pre ++ c :: post) = docCount pre + (c.length + docCount post) := by
    rw [docCount_append, docCount_cons]
  have hdrop : (pre ++ c :: post).flatten.drop start =
      c.drop (start - docCount pre) ++ post.flatten := by
    rw [List.flatten_append, List.flatten_cons, List.drop_append,
      List.drop_eq_nil_of_le (show pre.flatten.length ≤ start from h1), List.nil_append,
      List.drop_append_of_le_length (show start - pre.flatten.length ≤ c.length by
        have hpre : docCount pre = pre.flatten.length := rfl
        omega)]
    rfl
  have hlen : (c.drop (start - docCount pre) ++ post.flatten).length =
      docCount (pre ++ c :: post) - start := by
    have hpost : docCount post = post.flatten.length := rfl
    rw [List.length_append, List.length_drop, ← hpost]
    omega
  have htake : (c.drop (start - docCount pre) ++ post.flatten).take (last + 1 - start) =
      (c.drop (start - docCount pre) ++ post.flatten).take
        (min last (docCount (pre ++ c :: post) - 1) - start + 1) := by
    rw [List.take_eq_take_iff, hlen]
    omega
  rw [page, hdrop, htake, List.take_append, List.length_drop]

/-- **What the walk gives** that starts at the right place in the later containers. -/
theorem walk_eq_page {k : ℕ} :
    walk k start last pre c post = some (page (pre ++ c :: post) start last) ↔
      let need := min last (docCount (pre ++ c :: post) - 1) - start + 1 -
        (c.length - (start - docCount pre))
      takeDocs k need post = some (post.flatten.take need) := by
  rw [walk, page_eq h1 h2 hl, Option.map_eq_some_iff]
  simp only [List.append_cancel_left_eq, exists_eq_right]

theorem stringify_walk : walk 0 start last pre c post = some (page (pre ++ c :: post) start last) ↔
    NoGap (pre ++ c :: post) start last := by
  rw [walk_eq_page h1 h2 hl, noGap_iff h1 h2 hl, takeDocs_eq_some]
  simp only [and_true]

theorem getRaw_walk (hnodup : (pre ++ c :: post).flatten.Nodup) :
    walk (start - docCount pre) start last pre c post =
        some (page (pre ++ c :: post) start last) ↔
      NoGap (pre ++ c :: post) start last ∧
        (Boundary (pre ++ c :: post) start ∨ InOne (pre ++ c :: post) start last) := by
  by_cases hb : docCount pre = start
  · have hk : start - docCount pre = 0 := by omega
    rw [hk, stringify_walk h1 h2 hl]
    simp [boundary_start_iff h1 h2, hb]
  · rw [walk_eq_page h1 h2 hl, boundary_start_iff h1 h2, inOne_iff h1 h2 hl, noGap_iff h1 h2 hl]
    simp only [hb, false_or]
    by_cases hn : min last (docCount (pre ++ c :: post) - 1) - start + 1 -
        (c.length - (start - docCount pre)) = 0
    · rw [hn, takeDocs_zero, List.take_zero]
      have hg : Gapless 0 post := fun offset _ => Nat.zero_le _
      simp [hg]
    · have hpost : 0 < docCount post := by
        have htotal : docCount (pre ++ c :: post) = docCount pre + (c.length + docCount post) := by
          rw [docCount_append, docCount_cons]
        omega
      have hnd : post.flatten.Nodup := by
        rw [List.flatten_append, List.flatten_cons] at hnodup
        exact hnodup.of_append_right.of_append_right
      exact iff_of_false (takeDocs_wrong (by omega) (by omega) hpost hnd) fun h => hn h.2

end Exact

/-- **`stringify` and `getRaw` return exactly the documents of the page.** -/
def StringifyPages (container : List (List δ)) (start last : ℕ) : Prop :=
  Returns (fun n => stringify id n (numbered 0 container) start last)
    (page (numbered 0 container) start last)

def GetRawPages (container : List (List δ)) (start last : ℕ) : Prop :=
  Returns (fun n => getRaw id n (numbered 0 container) start last)
    (page (numbered 0 container) start last)

/-- A page without documents is right, whatever the containers. -/
theorem empty_page {start last : ℕ} {container : List (List δ)}
    (h : last < start ∨ docCount container ≤ start) (out : δ → τ) :
    (∀ n, stringify out n container start last = some []) ∧
      (∀ n, getRaw out n container start last = some []) ∧ page container start last = [] ∧
        NoGap container start last ∧ InOne container start last := by
  have hw : ∀ offset, ¬ Within container start last offset := by
    rintro offset ⟨h1, h2, h3⟩
    omega
  refine ⟨fun n => ?_, fun n => ?_, ?_, fun offset _ => hw offset, fun offset _ => hw offset⟩
  · unfold stringify
    split_ifs with h0
    · rfl
    · simp only
      rw [if_pos (by omega)]
  · unfold getRaw
    split_ifs with h0
    · rfl
    · simp only
      rw [if_pos (by omega)]
  · unfold page
    rcases h with h | h
    · have hcount : last + 1 - start = 0 := by omega
      rw [hcount, List.take_zero]
    · rw [List.drop_eq_nil_of_le h, List.take_nil]

theorem exists_container {start : ℕ} : ∀ {container : List (List δ)}, start < docCount container →
    ∃ (pre : List (List δ)) (c : List δ) (post : List (List δ)), container = pre ++ c :: post ∧
      docCount pre ≤ start ∧ start < docCount pre + c.length
  | [], h => absurd h (Nat.not_lt_zero _)
  | c :: cs, h => by
    by_cases hc : start < c.length
    · exact ⟨[], c, cs, rfl, Nat.zero_le _, by simpa [docCount] using hc⟩
    · rw [docCount_cons] at h
      have hcs : start - c.length < docCount cs := by omega
      obtain ⟨pre, d, post, rfl, h1, h2⟩ := exists_container hcs
      refine ⟨c :: pre, d, post, rfl, ?_, ?_⟩ <;> rw [docCount_cons] <;> omega

/-- What the functions return is the page of the documents, if the walk takes just these. -/
theorem returns_page_iff (out : δ → τ) (hout : Function.Injective out) (container : List (List δ))
    (hnodup : container.flatten.Nodup) (start last : ℕ) :
    (Returns (fun n => stringify out n container start last) ((page container start last).map out) ↔
        NoGap container start last) ∧
      (Returns (fun n => getRaw out n container start last) ((page container start last).map out) ↔
        NoGap container start last ∧
          (Boundary container start ∨ InOne container start last)) := by
  by_cases he : last < start ∨ docCount container ≤ start
  · obtain ⟨hs, hr, hp, hg, hi⟩ := empty_page he out
    simp only [hs, hr, hp, List.map_nil, hg, hi, or_true, and_true, iff_true]
    exact ⟨Returns.pure [], Returns.pure []⟩
  · rw [not_or, not_lt, not_le] at he
    obtain ⟨pre, c, post, rfl, h1, h2⟩ := exists_container he.2
    have hmap : ∀ r : Option (List δ), r.map (List.map out) =
        some ((page (pre ++ c :: post) start last).map out) ↔
          r = some (page (pre ++ c :: post) start last) := by
      intro r
      rw [← Option.map_some, (Option.map_injective (List.map_injective_iff.mpr hout)).eq_iff]
    rw [(stringify_gives out h1 h2 he.1).returns_iff, (getRaw_gives out h1 h2 he.1).returns_iff,
      hmap, hmap]
    exact ⟨stringify_walk h1 h2 he.1, getRaw_walk h1 h2 he.1 hnodup⟩

/-! ### Documents with their numbers -/

theorem docCount_numbered (container : List (List δ)) (n : ℕ) :
    docCount (numbered n container) = docCount container := by
  rw [docCount, numbered_flatten, List.length_zipIdx]
  rfl

theorem numbered_append : ∀ (pre post : List (List δ)) (n : ℕ),
    numbered n (pre ++ post) = numbered n pre ++ numbered (n + docCount pre) post
  | [], _, _ => rfl
  | c :: pre, post, n => by
    rw [List.cons_append, numbered, numbered_append pre, numbered, List.cons_append, docCount_cons,
      Nat.add_assoc]

theorem boundary_numbered (container : List (List δ)) (offset : ℕ) :
    Boundary (numbered 0 container) offset ↔ Boundary container offset := by
  constructor
  · rintro ⟨pre, post, he, rfl⟩
    refine ⟨pre.map (List.map Prod.fst), post.map (List.map Prod.fst), ?_, ?_⟩
    · rw [← List.map_append, ← he, numbered_map_fst]
    · rw [docCount, docCount, ← List.map_flatten, List.length_map]
  · rintro ⟨pre, post, rfl, rfl⟩
    exact ⟨_, _, numbered_append pre post 0, docCount_numbered pre 0⟩

theorem emptyAt_numbered (container : List (List δ)) (offset : ℕ) :
    EmptyAt (numbered 0 container) offset ↔ EmptyAt container offset := by
  constructor
  · rintro ⟨pre, post, he, rfl⟩
    refine ⟨pre.map (List.map Prod.fst), post.map (List.map Prod.fst), ?_, ?_⟩
    · rw [← numbered_map_fst container 0, he, List.map_append, List.map_cons, List.map_nil]
    · rw [docCount, docCount, ← List.map_flatten, List.length_map]
  · rintro ⟨pre, post, rfl, rfl⟩
    exact ⟨_, _, numbered_append pre ([] :: post) 0, docCount_numbered pre 0⟩

/-- The functions do not look into the documents. -/
theorem browse_map {ρ : Type} (f : δ → ρ) (start : ℕ) : ∀ (cs : List (List δ)) (skipped : ℕ),
    browse start skipped (cs.map (List.map f)) =
      (browse start skipped cs).map fun it => (it.1, it.2.map (List.map f))
  | [], _ => rfl
  | c :: cs, skipped => by
    rw [List.map_cons, browse, browse, List.length_map, browse_map f start cs]
    split_ifs <;> rfl

theorem docCount_map {ρ : Type} (f : δ → ρ) (cs : List (List δ)) :
    docCount (cs.map (List.map f)) = docCount cs := by
  rw [docCount, docCount, ← List.map_flatten, List.length_map]

theorem container_stringify_map {ρ : Type} (f : δ → ρ) (text : ρ → τ) (c : List δ) (start last : ℕ) :
    JSONContainer.stringify text (c.map f) start last =
      JSONContainer.stringify (text ∘ f) c start last := by
  unfold JSONContainer.stringify
  simp only [List.map_eq_nil_iff, List.length_map, ← List.map_drop, ← List.map_take, List.map_map]

theorem container_getRaw_map {ρ : Type} (f : δ → ρ) (copy : ρ → τ) (c : List δ) (start last : ℕ) :
    JSONContainer.getRaw copy (c.map f) start last =
      JSONContainer.getRaw (copy ∘ f) c start last := by
  unfold JSONContainer.getRaw
  simp only [List.map_eq_nil_iff, List.length_map, ← List.map_drop, ← List.map_take, List.map_map]

theorem collectStrings_map {ρ : Type} (f : δ → ρ) (text : ρ → τ) (start count : ℕ) :
    ∀ (n skipped : ℕ) (cs : List (List δ)) (ret : List τ),
      collectStrings text start count n skipped (cs.map (List.map f)) ret =
        collectStrings (text ∘ f) start count n skipped cs ret
  | 0, _, _, _ => rfl
  | n + 1, skipped, cs, ret => by
    cases cs with
    | nil => rfl
    | cons c cs =>
      have hstay := collectStrings_map f text start count n skipped (c :: cs) ret
      rw [List.map_cons] at hstay
      rw [List.map_cons, collectStrings, collectStrings]
      simp only [container_stringify_map, List.length_map, hstay,
        collectStrings_map f text start count n]

theorem collectRaws_map {ρ : Type} (f : δ → ρ) (copy : ρ → τ) (start count skipped : ℕ) :
    ∀ (n : ℕ) (cs : List (List δ)) (ret : List τ),
      collectRaws copy start count skipped n (cs.map (List.map f)) ret =
        collectRaws (copy ∘ f) start count skipped n cs ret
  | 0, _, _ => rfl
  | n + 1, cs, ret => by
    cases cs with
    | nil => rfl
    | cons c cs =>
      have hstay := collectRaws_map f copy start count skipped n (c :: cs) ret
      rw [List.map_cons] at hstay
      rw [List.map_cons, collectRaws, collectRaws]
      simp only [container_getRaw_map, List.length_map, hstay,
        collectRaws_map f copy start count skipped n]

theorem stringify_map {ρ : Type} (f : δ → ρ) (text : ρ → τ) (n : ℕ) (cs : List (List δ))
    (start last : ℕ) :
    stringify text n (cs.map (List.map f)) start last = stringify (text ∘ f) n cs start last := by
  unfold stringify
  rw [docCount_map, browse_map]
  cases browse start 0 cs with
  | none => rfl
  | some it => simp only [Option.map_some, Option.bind_some, collectStrings_map]

theorem getRaw_map {ρ : Type} (f : δ → ρ) (copy : ρ → τ) (n : ℕ) (cs : List (List δ))
    (start last : ℕ) :
    getRaw copy n (cs.map (List.map f)) start last = getRaw (copy ∘ f) n cs start last := by
  unfold getRaw
  rw [docCount_map, browse_map]
  cases browse start 0 cs with
  | none => rfl
  | some it => simp only [Option.map_some, Option.bind_some, collectRaws_map]

/-- What is returned of the documents is `out` of them. -/
theorem returns_map (out : δ → τ) {container : List (List δ)} {start last : ℕ} {l : List δ} :
    (Returns (fun n => stringify id n container start last) l →
        Returns (fun n => stringify out n container start last) (l.map out)) ∧
      (Returns (fun n => getRaw id n container start last) l →
        Returns (fun n => getRaw out n container start last) (l.map out)) := by
  by_cases he : last < start ∨ docCount container ≤ start
  · obtain ⟨hs, hr, -⟩ := empty_page he out
    obtain ⟨hs', hr', -⟩ := empty_page he (id : δ → δ)
    simp only [hs, hr, hs', hr']
    refine ⟨fun h => ?_, fun h => ?_⟩ <;>
      · rw [h.unique (Returns.pure [])]
        exact Returns.pure []
  · rw [not_or, not_lt, not_le] at he
    obtain ⟨pre, c, post, rfl, h1, h2⟩ := exists_container he.2
    rw [(stringify_gives id h1 h2 he.1).returns_iff, (getRaw_gives id h1 h2 he.1).returns_iff,
      (stringify_gives out h1 h2 he.1).returns_iff, (getRaw_gives out h1 h2 he.1).returns_iff,
      List.map_id_fun, Option.map_id_fun]
    exact ⟨fun h => congrArg (Option.map (List.map out)) h,
      fun h => congrArg (Option.map (List.map out)) h⟩

theorem page_numbered (container : List (List δ)) (start last : ℕ) :
    (page (numbered 0 container) start last).map Prod.fst = page container start last := by
  rw [page, page, List.map_take, List.map_drop, List.map_flatten, numbered_map_fst]

/-- If a page is right, then the texts are those of the documents of the page. -/
theorem StringifyPages.texts {container : List (List δ)} {start last : ℕ}
    (h : StringifyPages container start last) (text : δ → τ) :
    Returns (fun n => stringify text n container start last)
      ((page container start last).map text) := by
  have ht := (returns_map (text ∘ Prod.fst)).1 h
  simp only [← stringify_map, numbered_map_fst] at ht
  rwa [← List.map_map, page_numbered] at ht

theorem GetRawPages.copies {container : List (List δ)} {start last : ℕ}
    (h : GetRawPages container start last) (copy : δ → τ) :
    Returns (fun n => getRaw copy n container start last)
      ((page container start last).map copy) := by
  have ht := (returns_map (copy ∘ Prod.fst)).2 h
  simp only [← getRaw_map, numbered_map_fst] at ht
  rwa [← List.map_map, page_numbered] at ht

/-- **When a page is right.** -/
theorem pages_iff (container : List (List δ)) (start last : ℕ) :
    (StringifyPages container start last ↔ NoGap container start last) ∧
      (GetRawPages container start last ↔ NoGap container start last ∧
        (Boundary container start ∨ InOne container start last)) := by
  have h := returns_page_iff id Function.injective_id (numbered 0 container)
    (numbered_nodup container) start last
  rw [List.map_id] at h
  have hw : ∀ offset, Within (numbered 0 container) start last offset ↔
      Within container start last offset := by
    intro offset
    rw [Within, Within, docCount_numbered]
  simp only [NoGap, InOne, boundary_numbered, emptyAt_numbered, hw] at h
  exact h

/-- An empty container is never left, and a second container is not read from its start. -/
theorem not_pages : ¬ StringifyPages [[1], [], [2]] 0 1 ∧ ¬ GetRawPages [[1, 2], [3]] 1 2 := by
  constructor
  · intro h
    have hgap := ((returns_page_iff id Function.injective_id _ (numbered_nodup [[1], [], [2]])
      0 1).1.mp (by rw [List.map_id]; exact h)) 1
    exact hgap ⟨[[(1, 0)]], [[(2, 1)]], rfl, rfl⟩ ⟨by omega, by omega, by decide⟩
  · rintro ⟨N, hN⟩
    have h := hN (N + 4) (by omega)
    simp [getRaw, docCount, numbered, browse, collectRaws, JSONContainer.getRaw, page] at h

end Joda.Storage.Paging
