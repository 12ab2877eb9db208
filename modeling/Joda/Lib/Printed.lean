import Mathlib.Data.List.Basic
import Mathlib.Tactic.Common

/-! # Terms and their texts

Terms are words, quoted texts, calls `name(a, b)`, a sign before a term, and two terms with an operator
between them, with brackets around (`group`) or without (`binary`). Without brackets a text does not say
how its operators nest. It does (`text_injective`) for the terms that are `Readable`: the left operand of
an operator without brackets ends by itself (`Primary`), and these operators are none of those with
brackets. Then the text is read from the left, one byte ahead. -/

namespace Joda.Lib.Printed

abbrev Text := List UInt8

inductive Term where
  | word (s : Text)
  | quoted (quote : UInt8) (s : Text)
  | call (name : Text) (args : List Term)
  | sign (t : Term)
  | group (op : Text) (lhs rhs : Term)
  | binary (op : Text) (lhs rhs : Term)

/-! ### Texts -/

mutual

@[simp] def text : Term → Text
  | .word s => s
  | .quoted quote s => quote :: (s ++ [quote])
  | .call name args => name ++ 40 :: argsText args
  | .sign t => 33 :: text t
  | .group op lhs rhs => 40 :: (text lhs ++ 32 :: (op ++ 32 :: (text rhs ++ [41])))
  | .binary op lhs rhs => text lhs ++ 32 :: (op ++ 32 :: text rhs)

/-- The arguments of a call, with the closing bracket. -/
def argsText : List Term → Text
  | [] => [41]
  | arg :: args => text arg ++ furtherText args

/-- The arguments after the first one. -/
def furtherText : List Term → Text
  | [] => [41]
  | arg :: args => 44 :: 32 :: (text arg ++ furtherText args)

end

def isWordByte (c : UInt8) : Bool :=
  !(c == 32 || c == 33 || c == 34 || c == 39 || c == 40 || c == 41 || c == 44)

structure IsWord (s : Text) : Prop where
  ne_nil : s ≠ []
  bytes : ∀ c ∈ s, isWordByte c = true

/-- The text of the term ends where the term does. -/
def Primary : Term → Prop
  | .sign _ => False
  | .binary .. => False
  | _ => True

section Readable

variable (Grouped : Text → Prop)

mutual

/-- **A term that can be read back from its text**; `Grouped` are the operators with brackets. -/
@[simp] def Readable : Term → Prop
  | .word s => IsWord s
  | .quoted quote s => (quote = 34 ∨ quote = 39) ∧ quote ∉ s
  | .call name args => IsWord name ∧ AllReadable args
  | .sign t => Readable t
  | .group op lhs rhs => (32 : UInt8) ∉ op ∧ Grouped op ∧ Readable lhs ∧ Readable rhs
  | .binary op lhs rhs => (32 : UInt8) ∉ op ∧ ¬ Grouped op ∧ Primary lhs ∧ Readable lhs ∧ Readable rhs

@[simp] def AllReadable : List Term → Prop
  | [] => True
  | arg :: args => Readable arg ∧ AllReadable args

end

/-- What may follow a term that ends by itself. -/
def Ends (r : Text) : Prop := ∀ c, r.head? = some c → c = 32 ∨ c = 41 ∨ c = 44

/-- What may follow a term: an operator there is one with brackets. -/
structure Stops (r : Text) : Prop where
  ends : Ends r
  grouped : ∀ op s, (32 : UInt8) ∉ op → r = 32 :: (op ++ 32 :: s) → Grouped op

end Readable

variable {Grouped : Text → Prop} {p q : Term} {r s : Text}

/-! ### Where a text is cut -/

/-- A list is cut before its first element of a kind in one way. -/
theorem cut_unique {α : Type*} (stop : α → Bool) : ∀ {s t r r' : List α},
    (∀ c ∈ s, stop c = false) → (∀ c ∈ t, stop c = false) → (∀ c, r.head? = some c → stop c = true) →
      (∀ c, r'.head? = some c → stop c = true) → s ++ r = t ++ r' → s = t ∧ r = r'
  | [], [], _, _, _, _, _, _, h => ⟨rfl, h⟩
  | [], c :: t, r, r', _, ht, hr, _, h => by
    have hstop := hr c (by rw [List.nil_append] at h; rw [h]; rfl)
    rw [ht c List.mem_cons_self] at hstop
    cases hstop
  | c :: s, [], r, r', hs, _, _, hr', h => by
    have hstop := hr' c (by rw [List.nil_append] at h; rw [← h]; rfl)
    rw [hs c List.mem_cons_self] at hstop
    cases hstop
  | c :: s, d :: t, r, r', hs, ht, hr, hr', h => by
    obtain ⟨rfl, htail⟩ := List.cons.inj h
    obtain ⟨rfl, rfl⟩ := cut_unique stop (fun c hc => hs c (List.mem_cons_of_mem _ hc))
      (fun c hc => ht c (List.mem_cons_of_mem _ hc)) hr hr' htail
    exact ⟨rfl, rfl⟩

/-- A word ends before the first byte that is in no word. -/
theorem IsWord.cut {w w' : Text} (hw : IsWord w) (hw' : IsWord w')
    (hr : ∀ c, r.head? = some c → isWordByte c = false)
    (hs : ∀ c, s.head? = some c → isWordByte c = false) (h : w ++ r = w' ++ s) : w = w' ∧ r = s :=
  cut_unique (fun c => !isWordByte c) (fun c hc => by rw [hw.bytes c hc]; rfl)
    (fun c hc => by rw [hw'.bytes c hc]; rfl) (fun c hc => by rw [hr c hc]; rfl)
    (fun c hc => by rw [hs c hc]; rfl) h

theorem head_cons {c d : UInt8} {t : Text} (h : (c :: t).head? = some d) : d = c :=
  (Option.some.inj h).symm

theorem Ends.notWord (h : Ends r) (c : UInt8) (hc : r.head? = some c) : isWordByte c = false := by
  rcases h c hc with rfl | rfl | rfl <;> decide

theorem ends_nil : Ends [] := fun c hc => by cases hc

theorem ends_space (r : Text) : Ends (32 :: r) := fun _ hc => Or.inl (head_cons hc)

theorem stops_nil : Stops Grouped [] := ⟨ends_nil, fun _ _ _ h => by cases h⟩

theorem stops_close (r : Text) : Stops Grouped (41 :: r) :=
  ⟨fun _ hc => Or.inr (Or.inl (head_cons hc)), fun _ _ _ h => absurd (List.cons.inj h).1 (by decide)⟩

theorem stops_comma (r : Text) : Stops Grouped (44 :: r) :=
  ⟨fun _ hc => Or.inr (Or.inr (head_cons hc)), fun _ _ _ h => absurd (List.cons.inj h).1 (by decide)⟩

theorem beq_of_notMem {c : UInt8} {t : Text} (h : c ∉ t) : ∀ d ∈ t, (d == c) = false := fun _ hd =>
  beq_eq_false_iff_ne.mpr fun heq => h (heq ▸ hd)

/-- A text up to a byte that is not in it. -/
theorem delimited_unique {c : UInt8} {t t' : Text} (ht : c ∉ t) (ht' : c ∉ t')
    (h : t ++ c :: r = t' ++ c :: s) : t = t' ∧ r = s := by
  have hstop : ∀ {u : Text} (d : UInt8), (c :: u).head? = some d → (d == c) = true := by
    intro u d hd
    rw [head_cons hd]
    exact beq_self_eq_true c
  obtain ⟨rfl, hrest⟩ :=
    cut_unique (· == c) (beq_of_notMem ht) (beq_of_notMem ht') hstop hstop h
  exact ⟨rfl, (List.cons.inj hrest).2⟩

theorem stops_op {op : Text} (hop : (32 : UInt8) ∉ op) (hg : Grouped op) (r : Text) :
    Stops Grouped (32 :: (op ++ 32 :: r)) := by
  refine ⟨ends_space _, fun op' s hop' h => ?_⟩
  rw [(delimited_unique hop' hop (List.cons.inj h).2.symm).1]
  exact hg

/-! ### The first byte -/

/-- What a term begins with. -/
def Opens : Term → UInt8 → Prop
  | .word _, c => isWordByte c = true
  | .quoted quote _, c => c = quote
  | .call _ _, c => isWordByte c = true
  | .sign _, c => c = 33
  | .group .., c => c = 40
  | .binary _ lhs _, c => Opens lhs c

theorem IsWord.opens {w : Text} (hw : IsWord w) (r : Text) :
    ∃ c t, w ++ r = c :: t ∧ isWordByte c = true := by
  obtain ⟨c, w', rfl⟩ := List.exists_cons_of_ne_nil hw.ne_nil
  exact ⟨c, w' ++ r, rfl, hw.bytes c List.mem_cons_self⟩

theorem Readable.opens : ∀ {p : Term}, Readable Grouped p → ∀ r, ∃ c t, text p ++ r = c :: t ∧ Opens p c
  | .word _, h, r => by
    rw [Readable] at h
    rw [text]
    exact h.opens r
  | .quoted quote s, _, r => ⟨quote, s ++ [quote] ++ r, by rw [text]; rfl, rfl⟩
  | .call name args, h, r => by
    rw [Readable] at h
    rw [text, List.append_assoc]
    exact h.1.opens _
  | .sign t, _, r => ⟨33, text t ++ r, by rw [text]; rfl, rfl⟩
  | .group .., _, r => ⟨40, _, by rw [text]; rfl, rfl⟩
  | .binary op lhs rhs, h, r => by
    rw [Readable] at h
    obtain ⟨c, t, ht, hc⟩ := h.2.2.2.1.opens (32 :: (op ++ 32 :: text rhs) ++ r)
    exact ⟨c, t, by rw [text, List.append_assoc]; exact ht, hc⟩

/-- Terms with one text begin with one byte. -/
theorem opens_both (hp : Readable Grouped p) (hq : Readable Grouped q) (h : text p ++ r = text q ++ s) :
    ∃ c, Opens p c ∧ Opens q c := by
  obtain ⟨c, t, ht, hc⟩ := hp.opens r
  obtain ⟨d, u, hu, hd⟩ := hq.opens s
  rw [ht, hu] at h
  obtain ⟨rfl, -⟩ := List.cons.inj h
  exact ⟨c, hc, hd⟩

/-- A byte of a word begins a word or a call, a quote a quoted text. -/
theorem quote_notWord {quote : UInt8} (h : quote = 34 ∨ quote = 39) : isWordByte quote = false := by
  rcases h with rfl | rfl <;> decide

/-! ### Reading -/

section Reading

variable (Grouped)

/-- A term that ends by itself is read in one way from the front of a text. -/
def ReadsPrimary (p : Term) : Prop :=
  ∀ q, Readable Grouped q → Primary q → ∀ r s, Ends r → Ends s → text p ++ r = text q ++ s →
    p = q ∧ r = s

/-- A term is read in one way from the front of a text. -/
def Reads (p : Term) : Prop :=
  ∀ q, Readable Grouped q → ∀ r s, Stops Grouped r → Stops Grouped s → text p ++ r = text q ++ s →
    p = q ∧ r = s

/-- So are arguments up to the closing bracket. -/
def ReadsFurther (args : List Term) : Prop :=
  ∀ args', AllReadable Grouped args' → ∀ r s, furtherText args ++ r = furtherText args' ++ s →
    args = args' ∧ r = s

end Reading

theorem readsPrimary_word {w : Text} (hw : IsWord w) : ReadsPrimary Grouped (.word w) := by
  intro q hq hprimary r s hr hs h
  have hp : Readable Grouped (.word w) := by rw [Readable]; exact hw
  obtain ⟨c, hc, hd⟩ := opens_both hp hq h
  cases q with
  | word w' =>
    rw [Readable] at hq
    rw [text, text] at h
    obtain ⟨rfl, rfl⟩ := hw.cut hq hr.notWord hs.notWord h
    exact ⟨rfl, rfl⟩
  | quoted quote t =>
    rw [Readable] at hq
    rw [Opens, hd, quote_notWord hq.1] at hc
    cases hc
  | call name args =>
    rw [Readable] at hq
    rw [text, text, List.append_assoc, List.cons_append] at h
    obtain ⟨-, rfl⟩ := hw.cut hq.1 hr.notWord
      (fun c hc => by rw [head_cons hc]; decide) h
    rcases hr 40 rfl with h | h | h <;> exact absurd h (by decide)
  | sign t => exact hprimary.elim
  | group op lhs rhs =>
    have hc40 : c = 40 := hd
    have hword : isWordByte c = true := hc
    rw [hc40] at hword
    exact absurd hword (by decide)
  | binary op lhs rhs => exact hprimary.elim

theorem readsPrimary_quoted {quote : UInt8} {t : Text} (hquote : quote = 34 ∨ quote = 39)
    (ht : quote ∉ t) : ReadsPrimary Grouped (.quoted quote t) := by
  intro q hq hprimary r s hr hs h
  have hp : Readable Grouped (.quoted quote t) := by rw [Readable]; exact ⟨hquote, ht⟩
  obtain ⟨c, hc, hd⟩ := opens_both hp hq h
  rw [Opens] at hc
  subst hc
  cases q with
  | word w' =>
    rw [Opens, quote_notWord hquote] at hd
    cases hd
  | quoted quote' t' =>
    rw [Opens] at hd
    subst hd
    rw [Readable] at hq
    rw [text, text, List.cons_append, List.cons_append, List.append_assoc, List.append_assoc] at h
    obtain ⟨rfl, rfl⟩ := delimited_unique ht hq.2 (List.cons.inj h).2
    exact ⟨rfl, rfl⟩
  | call name args =>
    rw [Opens, quote_notWord hquote] at hd
    cases hd
  | sign t => exact hprimary.elim
  | group op lhs rhs =>
    rw [Opens] at hd
    subst hd
    exact absurd hquote (by decide)
  | binary op lhs rhs => exact hprimary.elim

theorem Opens.ne_close : ∀ {p : Term}, Readable Grouped p → ¬ Opens p 41
  | .word _, _, h => absurd (show isWordByte 41 = true from h) (by decide)
  | .quoted quote _, hp, h => by
    have hquote : (41 : UInt8) = quote := h
    rw [Readable, ← hquote] at hp
    exact absurd hp.1 (by decide)
  | .call .., _, h => absurd (show isWordByte 41 = true from h) (by decide)
  | .sign _, _, h => absurd (show (41 : UInt8) = 33 from h) (by decide)
  | .group .., _, h => absurd (show (41 : UInt8) = 40 from h) (by decide)
  | .binary .., hp, h => by
    rw [Readable] at hp
    exact Opens.ne_close hp.2.2.2.1 h

theorem Opens.ne_sign (hp : Readable Grouped p) (hprimary : Primary p) : ¬ Opens p 33 := by
  intro h
  cases p with
  | word w => exact absurd (show isWordByte 33 = true from h) (by decide)
  | quoted quote t =>
    have hquote : (33 : UInt8) = quote := h
    rw [Readable, ← hquote] at hp
    exact absurd hp.1 (by decide)
  | call name args => exact absurd (show isWordByte 33 = true from h) (by decide)
  | sign t => exact hprimary
  | group op lhs rhs => exact absurd (show (33 : UInt8) = 40 from h) (by decide)
  | binary op lhs rhs => exact hprimary

/-- A term that ends by itself is read to its end, or to where an operator without brackets follows. -/
theorem reads_of_primary (hp : Readable Grouped p) (hprimary : Primary p)
    (hreads : ReadsPrimary Grouped p) : Reads Grouped p := by
  intro q hq r s hr hs h
  cases q with
  | sign t =>
    obtain ⟨c, hc, hd⟩ := opens_both hp hq h
    obtain rfl : c = 33 := hd
    exact absurd hc (Opens.ne_sign hp hprimary)
  | binary op lhs rhs =>
    rw [Readable] at hq
    rw [text, List.append_assoc] at h
    obtain ⟨-, rfl⟩ := hreads lhs hq.2.2.2.1 hq.2.2.1 r _ hr.ends (ends_space _) h
    exact absurd (hr.grouped op (text rhs ++ s) hq.1 (by simp)) hq.2.1
  | word w => exact hreads _ hq trivial r s hr.ends hs.ends h
  | quoted quote t => exact hreads _ hq trivial r s hr.ends hs.ends h
  | call name args => exact hreads _ hq trivial r s hr.ends hs.ends h
  | group op lhs rhs => exact hreads _ hq trivial r s hr.ends hs.ends h

theorem stops_further (args : List Term) (r : Text) : Stops Grouped (furtherText args ++ r) := by
  cases args with
  | nil => exact stops_close r
  | cons a args =>
    rw [furtherText]
    exact stops_comma _

/-- The arguments of two calls. -/
theorem args_unique {args args' : List Term} (hargs : AllReadable Grouped args)
    (hargs' : AllReadable Grouped args')
    (hreads : ∀ a as, args = a :: as → Reads Grouped a ∧ ReadsFurther Grouped as)
    (h : argsText args ++ r = argsText args' ++ s) : args = args' ∧ r = s := by
  have hclose : ∀ {a : Term} {as : List Term} {u u' : Text}, AllReadable Grouped (a :: as) →
      argsText (a :: as) ++ u ≠ 41 :: u' := by
    intro a as u u' ha heq
    rw [AllReadable] at ha
    obtain ⟨c, t, ht, hc⟩ := ha.1.opens (furtherText as ++ u)
    rw [argsText, List.append_assoc, ht] at heq
    obtain ⟨rfl, -⟩ := List.cons.inj heq
    exact Opens.ne_close ha.1 hc
  rcases args with _ | ⟨a, as⟩
  · rcases args' with _ | ⟨a', as'⟩
    · exact ⟨rfl, (List.cons.inj h).2⟩
    · exact absurd h.symm (hclose hargs')
  · rcases args' with _ | ⟨a', as'⟩
    · exact absurd h (hclose hargs)
    · obtain ⟨ha, has⟩ := hreads a as rfl
      rw [AllReadable] at hargs'
      rw [argsText, argsText, List.append_assoc, List.append_assoc] at h
      obtain ⟨rfl, hrest⟩ := ha a' hargs'.1 _ _ (stops_further as r) (stops_further as' s) h
      obtain ⟨rfl, rfl⟩ := has as' hargs'.2 r s hrest
      exact ⟨rfl, rfl⟩

theorem readsPrimary_call {name : Text} {args : List Term} (hname : IsWord name)
    (hargs : AllReadable Grouped args)
    (hreads : ∀ a as, args = a :: as → Reads Grouped a ∧ ReadsFurther Grouped as) :
    ReadsPrimary Grouped (.call name args) := by
  intro q hq hprimary r s hr hs h
  have hp : Readable Grouped (.call name args) := by rw [Readable]; exact ⟨hname, hargs⟩
  obtain ⟨c, hc, hd⟩ := opens_both hp hq h
  have hopen : ∀ {t : Text} (c : UInt8), (40 :: t).head? = some c → isWordByte c = false := by
    intro t c hc
    rw [head_cons hc]
    decide
  rw [text, List.append_assoc, List.cons_append] at h
  cases q with
  | word w =>
    rw [Readable] at hq
    rw [text] at h
    obtain ⟨-, rfl⟩ := hname.cut hq hopen hs.notWord h
    rcases hs 40 rfl with h | h | h <;> exact absurd h (by decide)
  | quoted quote t =>
    rw [Readable] at hq
    have hword : isWordByte c = true := hc
    rw [show c = quote from hd, quote_notWord hq.1] at hword
    cases hword
  | call name' args' =>
    rw [Readable] at hq
    rw [text, List.append_assoc, List.cons_append] at h
    obtain ⟨rfl, hrest⟩ := hname.cut hq.1 hopen hopen h
    obtain ⟨rfl, rfl⟩ := args_unique hargs hq.2 hreads (List.cons.inj hrest).2
    exact ⟨rfl, rfl⟩
  | sign t => exact hprimary.elim
  | group op lhs rhs =>
    have hword : isWordByte c = true := hc
    rw [show c = 40 from hd] at hword
    exact absurd hword (by decide)
  | binary op lhs rhs => exact hprimary.elim

theorem readsPrimary_group {op : Text} {lhs rhs : Term} (hp : Readable Grouped (.group op lhs rhs))
    (hl : Reads Grouped lhs) (hr : Reads Grouped rhs) : ReadsPrimary Grouped (.group op lhs rhs) := by
  intro q hq hprimary r s _ _ h
  obtain ⟨c, hc, hd⟩ := opens_both hp hq h
  obtain rfl : c = 40 := hc
  rw [Readable] at hp
  cases q with
  | word w => exact absurd (show isWordByte 40 = true from hd) (by decide)
  | quoted quote t =>
    rw [Readable, ← show (40 : UInt8) = quote from hd] at hq
    exact absurd hq.1 (by decide)
  | call name args => exact absurd (show isWordByte 40 = true from hd) (by decide)
  | sign t => exact hprimary.elim
  | group op' lhs' rhs' =>
    rw [Readable] at hq
    simp only [text, List.cons_append, List.append_assoc, List.cons.injEq, true_and] at h
    obtain ⟨rfl, hrest⟩ := hl lhs' hq.2.2.1 _ _ (stops_op hp.1 hp.2.1 _) (stops_op hq.1 hq.2.1 _) h
    obtain ⟨rfl, hright⟩ := delimited_unique hp.1 hq.1 (List.cons.inj hrest).2
    obtain ⟨rfl, hclose⟩ := hr rhs' hq.2.2.2 _ _ (stops_close _) (stops_close _) hright
    exact ⟨rfl, (List.cons.inj hclose).2⟩
  | binary op' lhs' rhs' => exact hprimary.elim

theorem reads_sign {t : Term} (hp : Readable Grouped (.sign t)) (ht : Reads Grouped t) :
    Reads Grouped (.sign t) := by
  intro q hq r s hr hs h
  obtain ⟨c, hc, hd⟩ := opens_both hp hq h
  obtain rfl : c = 33 := hc
  have hnot : ¬ Primary q := fun hprimary => Opens.ne_sign hq hprimary hd
  cases q with
  | sign u =>
    rw [Readable] at hq
    rw [text, text] at h
    obtain ⟨rfl, rfl⟩ := ht u hq r s hr hs (List.cons.inj h).2
    exact ⟨rfl, rfl⟩
  | binary op lhs rhs =>
    rw [Readable] at hq
    exact absurd (show Opens lhs 33 from hd) (Opens.ne_sign hq.2.2.2.1 hq.2.2.1)
  | _ => exact absurd trivial hnot

theorem reads_binary {op : Text} {lhs rhs : Term} (hp : Readable Grouped (.binary op lhs rhs))
    (hl : ReadsPrimary Grouped lhs) (hr : Reads Grouped rhs) : Reads Grouped (.binary op lhs rhs) := by
  intro q hq r s hstop hstop' h
  obtain ⟨c, hc, hd⟩ := opens_both hp hq h
  have hp' := hp
  rw [Readable] at hp'
  -- against a term that ends by itself, the operator would have to come after it
  have hprimary : ¬ Primary q := by
    intro hprimary
    rw [text, List.append_assoc] at h
    obtain ⟨-, rfl⟩ := hl q hq hprimary _ s (ends_space _) hstop'.ends h
    exact absurd (hstop'.grouped op (text rhs ++ r) hp'.1 (by simp)) hp'.2.1
  cases q with
  | sign u =>
    obtain rfl : c = 33 := hd
    exact absurd (show Opens lhs 33 from hc) (Opens.ne_sign hp'.2.2.2.1 hp'.2.2.1)
  | binary op' lhs' rhs' =>
    rw [Readable] at hq
    simp only [text, List.append_assoc, List.cons_append] at h
    obtain ⟨rfl, hrest⟩ := hl lhs' hq.2.2.2.1 hq.2.2.1 _ _ (ends_space _) (ends_space _) h
    obtain ⟨rfl, hright⟩ := delimited_unique hp'.1 hq.1 (List.cons.inj hrest).2
    obtain ⟨rfl, rfl⟩ := hr rhs' hq.2.2.2.2 r s hstop hstop' hright
    exact ⟨rfl, rfl⟩
  | _ => exact absurd trivial hprimary

mutual

/-- **Every term is read in one way**, with what may follow it. -/
theorem reads : ∀ {p : Term}, Readable Grouped p →
    (Primary p → ReadsPrimary Grouped p) ∧ Reads Grouped p
  | .word w, h => by
    have hw : ReadsPrimary Grouped (.word w) := readsPrimary_word (by rwa [Readable] at h)
    exact ⟨fun _ => hw, reads_of_primary h trivial hw⟩
  | .quoted quote t, h => by
    have hq : ReadsPrimary Grouped (.quoted quote t) := by
      rw [Readable] at h
      exact readsPrimary_quoted h.1 h.2
    exact ⟨fun _ => hq, reads_of_primary h trivial hq⟩
  | .call name [], h => by
    have hc : ReadsPrimary Grouped (.call name []) := by
      rw [Readable] at h
      exact readsPrimary_call h.1 h.2 fun a as heq => by cases heq
    exact ⟨fun _ => hc, reads_of_primary h trivial hc⟩
  | .call name (a :: as), h => by
    have hc : ReadsPrimary Grouped (.call name (a :: as)) := by
      rw [Readable, AllReadable] at h
      have hread : Reads Grouped a ∧ ReadsFurther Grouped as := ⟨(reads h.2.1).2, readsFurther h.2.2⟩
      refine readsPrimary_call h.1 (by rw [AllReadable]; exact h.2) fun b bs heq => ?_
      obtain ⟨rfl, rfl⟩ := List.cons.inj heq
      exact hread
    exact ⟨fun _ => hc, reads_of_primary h trivial hc⟩
  | .sign t, h => by
    have ht := h
    rw [Readable] at ht
    exact ⟨fun hprimary => hprimary.elim, reads_sign h (reads ht).2⟩
  | .group op lhs rhs, h => by
    have hp := h
    rw [Readable] at hp
    have hg := readsPrimary_group h (reads hp.2.2.1).2 (reads hp.2.2.2).2
    exact ⟨fun _ => hg, reads_of_primary h trivial hg⟩
  | .binary op lhs rhs, h => by
    have hp := h
    rw [Readable] at hp
    exact ⟨fun hprimary => hprimary.elim,
      reads_binary h ((reads hp.2.2.2.1).1 hp.2.2.1) (reads hp.2.2.2.2).2⟩

theorem readsFurther : ∀ {args : List Term}, AllReadable Grouped args → ReadsFurther Grouped args
  | [], _ => by
    intro args' hargs' r s h
    rcases args' with _ | ⟨a', as'⟩
    · exact ⟨rfl, (List.cons.inj h).2⟩
    · rw [furtherText, furtherText] at h
      exact absurd (List.cons.inj h).1 (by decide)
  | a :: as, h => by
    rw [AllReadable] at h
    have ha := (reads h.1).2
    have has := readsFurther h.2
    intro args' hargs' r s heq
    rcases args' with _ | ⟨a', as'⟩
    · rw [furtherText, furtherText] at heq
      exact absurd (List.cons.inj heq).1 (by decide)
    · rw [AllReadable] at hargs'
      simp only [furtherText, List.cons_append, List.append_assoc, List.cons.injEq, true_and] at heq
      obtain ⟨rfl, hrest⟩ := ha a' hargs'.1 _ _ (stops_further as r) (stops_further as' s) heq
      obtain ⟨rfl, rfl⟩ := has as' hargs'.2 r s hrest
      exact ⟨rfl, rfl⟩

end

/-- **A readable term is told by its text.** -/
theorem text_injective (hp : Readable Grouped p) (hq : Readable Grouped q) (h : text p = text q) :
    p = q := by
  refine ((reads hp).2 q hq [] [] stops_nil stops_nil ?_).1
  rw [List.append_nil, List.append_nil, h]

end Joda.Lib.Printed
