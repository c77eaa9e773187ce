import DeskCalculator.Proofs.Expr.Height
import DeskCalculator.Proofs.Outcome
import Mathlib.Data.List.Chain
import Mathlib.Logic.Relation

/-!
# Expressions listed in postfix order

Each expression is listed with every operator behind its operands. A normal expression is built again from
its listing, and what is built from any tokens is normal and is listed as those tokens with their pairs of
signs cancelled.
-/

namespace DeskCalculator

open DeskCalculator.Except Relation

/-! ## Pairs of signs -/

/-- Two signs side by side go. -/
inductive Cancels : List Token → List Token → Prop
  | pair (before after : List Token) :
      Cancels (before ++ .negation :: .negation :: after) (before ++ after)

/-- No two signs stand side by side. -/
def SignsApart (ts : List Token) : Prop :=
  ts.IsChain fun t u => ¬ (t = .negation ∧ u = .negation)

theorem signsApart_iff {ts : List Token} : SignsApart ts ↔ ∀ us, ¬ Cancels ts us := by
  constructor
  · rintro h _ ⟨before, after⟩
    have hpair := (List.isChain_append.mp h).2.1
    exact (List.isChain_cons_cons.mp hpair).1 ⟨rfl, rfl⟩
  · intro h
    refine List.isChain_iff_forall_rel_of_append_cons_cons.mpr ?_
    rintro _ _ before after rfl ⟨rfl, rfl⟩
    exact h _ (.pair before after)

theorem SignsApart.append {ts us : List Token} (ht : SignsApart ts) (hu : SignsApart us)
    (h : ts.getLast? = some .negation → us.head? ≠ some .negation) : SignsApart (ts ++ us) := by
  refine List.isChain_append.mpr ⟨ht, hu, ?_⟩
  rintro _ hlast _ hhead ⟨rfl, rfl⟩
  exact h hlast hhead

theorem Cancels.append {ts us : List Token} (h : ReflTransGen Cancels ts us) (after : List Token) :
    ReflTransGen Cancels (ts ++ after) (us ++ after) := by
  refine ReflTransGen.lift (· ++ after) ?_ _ _ h
  rintro _ _ ⟨front, back⟩
  simpa [Function.onFun] using Cancels.pair front (back ++ after)

/-- A token before tokens with their signs apart, where two signs go. -/
def signBefore : Token → List Token → List Token
  | .negation, .negation :: ts => ts
  | t, ts => t :: ts

def cancelSigns : List Token → List Token :=
  List.foldr signBefore []

theorem SignsApart.signBefore {ts : List Token} (t : Token) (h : SignsApart ts) :
    SignsApart (signBefore t ts) := by
  fun_cases DeskCalculator.signBefore t ts
  case case1 => exact h.tail
  case case2 hne =>
    refine List.isChain_cons.mpr ⟨?_, h⟩
    rintro _ hhead ⟨rfl, rfl⟩
    obtain ⟨us, rfl⟩ := List.head?_eq_some_iff.mp hhead
    exact hne us rfl rfl

theorem signsApart_cancelSigns (ts : List Token) : SignsApart (cancelSigns ts) := by
  induction ts with
  | nil => exact .nil
  | cons t ts ih => exact ih.signBefore t

theorem signBefore_eq_cons {t : Token} {ts : List Token} (h : SignsApart (t :: ts)) :
    signBefore t ts = t :: ts := by
  fun_cases signBefore t ts
  case case1 => exact absurd ⟨rfl, rfl⟩ (List.isChain_cons_cons.mp h).1
  case case2 => rfl

theorem signBefore_signBefore {ts : List Token} (h : SignsApart ts) :
    signBefore .negation (signBefore .negation ts) = ts := by
  by_cases hhead : ts.head? = some .negation
  · obtain ⟨us, rfl⟩ := List.head?_eq_some_iff.mp hhead
    exact signBefore_eq_cons h
  · have hs : SignsApart (.negation :: ts) :=
      List.isChain_cons.mpr ⟨fun _ ht hsigns => hhead (hsigns.2 ▸ ht), h⟩
    rw [signBefore_eq_cons hs]
    rfl

theorem SignsApart.cancelSigns_eq {ts : List Token} (h : SignsApart ts) : cancelSigns ts = ts := by
  induction ts with
  | nil => rfl
  | cons t ts ih => rw [cancelSigns, List.foldr_cons, ← cancelSigns, ih h.tail, signBefore_eq_cons h]

theorem Cancels.cancelSigns_eq {ts us : List Token} (h : Cancels ts us) :
    cancelSigns ts = cancelSigns us := by
  obtain ⟨before, after⟩ := h
  have hpair := signBefore_signBefore (signsApart_cancelSigns after)
  simp only [cancelSigns] at hpair
  simp only [cancelSigns, List.foldr_append, List.foldr_cons, hpair]

/-- However the pairs are cancelled until none remain, the same tokens are left. -/
theorem eq_of_cancels {ts us vs : List Token} (hu : ReflTransGen Cancels ts us)
    (hv : ReflTransGen Cancels ts vs) (au : SignsApart us) (av : SignsApart vs) : us = vs := by
  have kept : ∀ {ws}, ReflTransGen Cancels ts ws → cancelSigns ts = cancelSigns ws := fun h => by
    induction h with
    | refl => rfl
    | tail _ h ih => exact ih.trans h.cancelSigns_eq
  rw [← au.cancelSigns_eq, ← kept hu, kept hv, av.cancelSigns_eq]

namespace Expr

/-! ## Listings -/

mutual

/-- The tokens of the expression, with every operator behind its operands. -/
def listing : Expr → List Token
  | .number x => [.number x]
  | .constant c => [.name c.name]
  | .negation e => e.listing ++ [.negation]
  | .chain head links => head.listing ++ linkListing links
  | .tower members => memberListing members
  | .call f argument => argument.listing ++ [.name f.name]

/-- Each link is joined to what stands before it. -/
def linkListing : List (Op × Expr) → List Token
  | [] => []
  | (op, e) :: links => e.listing ++ .op op :: linkListing links

/-- Each member but the last is raised to what stands after it. -/
def memberListing : List Expr → List Token
  | [] => []
  | [e] => e.listing
  | e :: e' :: rest => e.listing ++ memberListing (e' :: rest) ++ [.power]

end

theorem linkListing_append (links : List (Op × Expr)) (op : Op) (e : Expr) :
    linkListing (links ++ [(op, e)]) = linkListing links ++ e.listing ++ [.op op] := by
  induction links with
  | nil => simp [linkListing]
  | cons link links ih => simp [linkListing, ih]

theorem memberListing_cons (e : Expr) {members : List Expr} (h : members ≠ []) :
    memberListing (e :: members) = e.listing ++ memberListing members ++ [.power] := by
  obtain ⟨e', rest, rfl⟩ := List.exists_cons_of_ne_nil h
  simp only [memberListing]

/-! ## An expression is built from its listing -/

/-- The expression with its height. -/
def Built.of (e : Expr) : Built := ⟨e, e.height⟩

theorem Built.IsMeasured.eq_of {x : Built} {e : Expr} (h : x.IsMeasured) (he : x.expr = e) :
    x = .of e := by
  subst he
  obtain ⟨e, n⟩ := x
  exact congrArg (Built.mk e) h

/-- A head with the links that are joined to it so far. -/
def joined (head : Expr) : List (Op × Expr) → Expr
  | [] => head
  | link :: links => .chain head (link :: links)

theorem link_joined {head : Expr} (hc : head.isChain = false) (links : List (Op × Expr)) (op : Op)
    (e : Expr) :
    (Built.of (joined head links)).link op (.of e) = .of (joined head (links ++ [(op, e)])) := by
  have hm : ((Built.of (joined head links)).link op (.of e)).IsMeasured :=
    Built.link_isMeasured (by rfl) (by rfl)
  refine hm.eq_of ?_
  cases links with
  | nil => cases head <;> first | rfl | cases hc
  | cons link links => rfl

theorem height_joined_le (head : Expr) (links : List (Op × Expr)) :
    (joined head links).height ≤ max head.height (linkHeight links) + 1 := by
  cases links with
  | nil => exact Nat.le_succ_of_le (Nat.le_max_left ..)
  | cons link links => simp only [joined, height, Nat.le_refl]

theorem joined_eq_chain (head : Expr) {links : List (Op × Expr)} (h : links ≠ []) :
    joined head links = .chain head links := by
  obtain ⟨link, links, rfl⟩ := List.exists_cons_of_ne_nil h
  rfl

/-- The members from one on, which are a tower when they are several. -/
def raised : List Expr → Expr
  | [e] => e
  | members => .tower members

theorem raise_raised (e : Expr) {members : List Expr} (hne : members ≠ [])
    (hlast : members.getLast?.all (!isTower ·) = true) :
    (Built.of e).raise (.of (raised members)) = .of (raised (e :: members)) := by
  have hm : ((Built.of e).raise (.of (raised members))).IsMeasured :=
    Built.raise_isMeasured (by rfl) (by rfl)
  refine hm.eq_of ?_
  match members with
  | [b] => cases b <;> first | rfl | simp [isTower] at hlast
  | b :: c :: rest => rfl

theorem height_raised_le {members : List Expr} (hne : members ≠ []) :
    (raised members).height ≤ memberHeight members + 1 := by
  match members with
  | [e] => simp only [raised, memberHeight]; omega
  | e :: e' :: rest => simp only [raised, height, Nat.le_refl]

theorem raised_eq_tower {members : List Expr} (h : 2 ≤ members.length) :
    raised members = .tower members := by
  match members with
  | e :: e' :: rest => rfl

theorem negate_of {e : Expr} (h : e.isNegation = false) : (Built.of e).negate = .of (.negation e) := by
  have hm : (Built.of e).negate.IsMeasured := Built.negate_isMeasured (by rfl)
  refine hm.eq_of ?_
  cases e <;> first | rfl | cases h

theorem pushAll_token {t : Token} {stack under : List Built} {x : Built} {e : Expr}
    (h : Pushes t stack (x :: under)) (hx : x = .of e) (hh : e.height ≤ maxHeight) (rest : List Token) :
    pushAll stack (t :: rest) = pushAll (.of e :: under) rest := by
  subst hx
  have hpush : pushBuilt (.of e) under = .ok (.of e :: under) := pushBuilt_eq_ok_iff.mpr ⟨hh, rfl⟩
  rw [pushAll, h.push_eq, hpush, ok_bind]

-- Any stack and any further tokens: a part of an expression is pushed between other parts.
mutual

/-- The listing of a normal expression pushes just that expression. -/
theorem Normal.pushAll_listing : {e : Expr} → e.Normal → e.height ≤ maxHeight →
    ∀ (stack : List Built) (rest : List Token),
    pushAll stack (e.listing ++ rest) = pushAll (.of e :: stack) rest
  | .number x, _, hh, stack, rest => pushAll_token (.number x stack) rfl hh rest
  | .constant c, _, hh, stack, rest => pushAll_token (.constant c stack) rfl hh rest
  | .negation e, h, hh, stack, rest => by
      rw [listing, List.append_assoc, Normal.pushAll_listing h.1 (Nat.le_of_succ_le hh),
        List.singleton_append, pushAll_token (.negation (.of e) stack) (negate_of h.2) hh]
  | .chain head links, h, hh, stack, rest => by
      obtain ⟨hhead, hc, hne, hlinks⟩ := h
      obtain ⟨hh₁, hh₂⟩ := Nat.max_lt.mp hh
      rw [listing, List.append_assoc, Normal.pushAll_listing hhead (Nat.le_of_lt hh₁),
        ← joined_eq_chain head hne]
      exact @NormalLinks.pushAll_listing _ hlinks head [] hc hh₁ (Nat.zero_lt_of_lt hh₁) hh₂ stack rest
  | .tower members, h, hh, stack, rest => by
      obtain ⟨hlen, hlast, hall⟩ := h
      have hne : members ≠ [] := List.ne_nil_of_length_pos (Nat.zero_lt_of_lt hlen)
      rw [listing, NormalAll.pushAll_listing hall hne hlast hh, raised_eq_tower hlen]
  | .call f argument, h, hh, stack, rest => by
      have ha : argument.Normal := h
      rw [listing, List.append_assoc, Normal.pushAll_listing ha (Nat.le_of_succ_le hh),
        List.singleton_append, pushAll_token (.call f (.of argument) stack) (by rfl) hh]

-- The links that are `done` stand already in the chain on the stack.
theorem NormalLinks.pushAll_listing : {links : List (Op × Expr)} → NormalLinks links →
    ∀ {head : Expr} {done : List (Op × Expr)}, head.isChain = false → head.height < maxHeight →
    linkHeight done < maxHeight → linkHeight links < maxHeight →
    ∀ (stack : List Built) (rest : List Token),
    pushAll (.of (joined head done) :: stack) (linkListing links ++ rest) =
      pushAll (.of (joined head (done ++ links)) :: stack) rest
  | [], _, head, done, _, _, _, _, stack, rest =>
    by simp only [linkListing, List.nil_append, List.append_nil]
  | (op, e) :: links, h, head, done, hc, hhead, hdone, hlinks, stack, rest => by
      obtain ⟨he, hlinks⟩ := Nat.max_lt.mp hlinks
      have hmore : linkHeight (done ++ [(op, e)]) < maxHeight := by
        rw [linkHeight_append]
        exact Nat.max_lt.mpr ⟨hdone, he⟩
      have hjoined : (joined head (done ++ [(op, e)])).height ≤ maxHeight :=
        Nat.le_trans (height_joined_le ..) (Nat.max_lt.mpr ⟨hhead, hmore⟩)
      rw [linkListing, List.append_assoc, Normal.pushAll_listing h.1 (Nat.le_of_lt he), List.cons_append,
        pushAll_token (.op op (.of (joined head done)) (.of e) stack) (link_joined hc done op e) hjoined,
        NormalLinks.pushAll_listing h.2 hc hhead hmore hlinks, List.append_assoc, List.singleton_append]

theorem NormalAll.pushAll_listing : {members : List Expr} → NormalAll members → members ≠ [] →
    members.getLast?.all (!isTower ·) = true → memberHeight members < maxHeight →
    ∀ (stack : List Built) (rest : List Token),
    pushAll stack (memberListing members ++ rest) = pushAll (.of (raised members) :: stack) rest
  | [e], h, _, _, hh, stack, rest => by
      have he : e.height ≤ maxHeight := Nat.le_trans (Nat.le_max_left e.height 0) (Nat.le_of_lt hh)
      rw [memberListing, Normal.pushAll_listing h.1 he, raised]
  | e :: e' :: members, h, _, hlast, hh, stack, rest => by
      obtain ⟨he, hmembers⟩ := Nat.max_lt.mp hh
      have hlast' : (e' :: members).getLast?.all (!isTower ·) = true := by
        rwa [List.getLast?_cons_cons] at hlast
      have hraised : (raised (e :: e' :: members)).height ≤ maxHeight :=
        Nat.le_trans (height_raised_le (by simp)) hh
      rw [memberListing, List.append_assoc, List.append_assoc,
        Normal.pushAll_listing h.1 (Nat.le_of_lt he),
        NormalAll.pushAll_listing h.2 (by simp) hlast' hmembers, List.singleton_append,
        pushAll_token (.power (.of e) (.of (raised (e' :: members))) stack)
          (raise_raised e (by simp) hlast') hraised]

end

theorem ofPostfixOrder_listing {e : Expr} (h : e.Normal) (hh : e.height ≤ maxHeight) :
    ofPostfixOrder e.listing = .ok e := by
  have hrun : pushAll [] e.listing = .ok [.of e] := by
    have := h.pushAll_listing hh [] []
    rwa [List.append_nil] at this
  rw [ofPostfixOrder, hrun]
  rfl

/-! ## What is built is listed as its tokens without their pairs of signs -/

/-- The tokens of all that is on the stack, whose top comes last. -/
def stackListing (stack : List Built) : List Token :=
  stack.reverse.flatMap (·.expr.listing)

theorem stackListing_cons (x : Built) (stack : List Built) :
    stackListing (x :: stack) = stackListing stack ++ x.expr.listing := by
  simp [stackListing]

theorem Built.raise_listing {a b : Built} (hb : b.expr.Normal) :
    (a.raise b).expr.listing = a.expr.listing ++ b.expr.listing ++ [.power] := by
  obtain ⟨e, n⟩ := b
  cases e with
  | tower members =>
      have hne : members ≠ [] := List.ne_nil_of_length_pos (Nat.zero_lt_of_lt hb.1)
      simp only [raise, listing, memberListing_cons a.expr hne]
  | _ => simp only [raise, listing, memberListing]

theorem Built.link_listing (op : Op) (a b : Built) :
    (a.link op b).expr.listing = a.expr.listing ++ b.expr.listing ++ [.op op] := by
  obtain ⟨e, n⟩ := a
  cases e with
  | chain head links => simp only [link, listing, linkListing_append, List.append_assoc]
  | _ => simp only [link, listing, linkListing, List.append_assoc]

/-- A token is put behind the operands, and a sign behind a sign goes with it. -/
theorem Pushes.cancels {t : Token} {stack stack' : List Built} (h : Pushes t stack stack')
    (hs : ∀ x ∈ stack, x.expr.Normal) :
    ReflTransGen Cancels (stackListing stack ++ [t]) (stackListing stack') := by
  cases h with
  | number | constant => rw [stackListing_cons]; exact .refl
  | call f x stack =>
      rw [stackListing_cons, stackListing_cons, List.append_assoc]
      exact .refl
  | negation x stack =>
      rw [stackListing_cons, stackListing_cons, List.append_assoc]
      obtain ⟨e, n⟩ := x
      cases e with
      | negation e =>
          have := Cancels.pair (stackListing stack ++ e.listing) []
          exact .single (by simpa [listing, Built.negate] using this)
      | _ => exact .refl
  | power a b stack =>
      rw [stackListing_cons, stackListing_cons, stackListing_cons, Built.raise_listing (hs b (by simp)),
        List.append_assoc, List.append_assoc, List.append_assoc]
  | op o a b stack =>
      rw [stackListing_cons, stackListing_cons, stackListing_cons, Built.link_listing,
        List.append_assoc, List.append_assoc, List.append_assoc]

theorem cancels_of_pushAll {order : List Token} {stack stack' : List Built}
    (hs : ∀ x ∈ stack, x.expr.Normal) (h : pushAll stack order = .ok stack') :
    ReflTransGen Cancels (stackListing stack ++ order) (stackListing stack') := by
  induction order generalizing stack with
  | nil =>
      obtain rfl := Except.ok.inj h
      rw [List.append_nil]
  | cons t order ih =>
      obtain ⟨stack₁, h₁, h⟩ := bind_eq_ok_iff.mp h
      have hp := pushes_of_push h₁
      have first := Cancels.append (hp.cancels hs) order
      rw [List.append_assoc, List.singleton_append] at first
      exact first.trans (ih (hp.normal hs) h)

theorem cancels_of_ofPostfixOrder {order : List Token} {e : Expr} (h : ofPostfixOrder order = .ok e) :
    ReflTransGen Cancels order e.listing := by
  obtain ⟨stack, hs, h⟩ := bind_eq_ok_iff.mp h
  match stack, h with
  | [x], h =>
      obtain rfl := Except.ok.inj h
      simpa [stackListing] using cancels_of_pushAll (by simp) hs

/-! ## The signs of a listing stand apart -/

mutual

/-- A listing starts with a leaf. -/
theorem Normal.head?_listing : {e : Expr} → e.Normal → ∀ rest, (e.listing ++ rest).head? ≠ some .negation
  | .number _, _, _ | .constant _, _, _ => nofun
  | .negation e, h, rest => by
      rw [listing, List.append_assoc]
      exact Normal.head?_listing h.1 _
  | .chain head links, h, rest => by
      rw [listing, List.append_assoc]
      exact Normal.head?_listing h.1 _
  | .tower members, h, rest => by
      rw [listing]
      exact NormalAll.head?_listing h.2.2 (List.ne_nil_of_length_pos (Nat.zero_lt_of_lt h.1)) rest
  | .call f argument, h, rest => by
      have ha : argument.Normal := h
      rw [listing, List.append_assoc]
      exact Normal.head?_listing ha _

theorem NormalAll.head?_listing : {members : List Expr} → NormalAll members → members ≠ [] →
    ∀ rest, (memberListing members ++ rest).head? ≠ some .negation
  | [e], h, _, rest => by
      rw [memberListing]
      exact Normal.head?_listing h.1 rest
  | e :: e' :: members, h, _, rest => by
      rw [memberListing, List.append_assoc, List.append_assoc]
      exact Normal.head?_listing h.1 _

end

/-- A listing ends with the operator of the expression. -/
theorem Normal.getLast?_listing {e : Expr} (h : e.Normal) (hn : e.isNegation = false) :
    e.listing.getLast? ≠ some .negation := by
  cases e with
  | number | constant => nofun
  | negation e => cases hn
  | chain head links =>
      obtain ⟨init, ⟨op, e⟩, rfl⟩ := (List.eq_nil_or_concat links).resolve_left h.2.2.1
      simp [listing, linkListing_append]
  | tower members =>
      match members, h.1 with
      | e :: e' :: rest, _ => simp [listing, memberListing]
  | call f argument => simp [listing]

mutual

theorem Normal.signsApart : {e : Expr} → e.Normal → SignsApart e.listing
  | .number _, _ | .constant _, _ => .singleton _
  | .negation e, h => by
      rw [listing]
      exact (Normal.signsApart h.1).append (.singleton _) fun hlast =>
        absurd hlast (h.1.getLast?_listing h.2)
  | .chain head links, h => by
      rw [listing]
      exact NormalLinks.signsApart h.2.2.2 (Normal.signsApart h.1)
  | .tower members, h => by
      rw [listing]
      exact NormalAll.signsApart h.2.2
  | .call f argument, h => by
      have ha : argument.Normal := h
      rw [listing]
      exact (Normal.signsApart ha).append (.singleton _) fun _ => nofun

theorem NormalLinks.signsApart : {links : List (Op × Expr)} → NormalLinks links →
    ∀ {ts : List Token}, SignsApart ts → SignsApart (ts ++ linkListing links)
  | [], _, ts, ht => by rwa [linkListing, List.append_nil]
  | (op, e) :: links, h, ts, ht => by
      have hhead := h.1.head?_listing []
      rw [List.append_nil] at hhead
      have he : SignsApart (ts ++ e.listing) := ht.append (Normal.signsApart h.1) fun _ => hhead
      have := NormalLinks.signsApart h.2 (he.append (.singleton (.op op)) fun _ => nofun)
      rwa [List.append_assoc, List.append_assoc, List.singleton_append, ← linkListing] at this

theorem NormalAll.signsApart :
    {members : List Expr} → NormalAll members → SignsApart (memberListing members)
  | [], _ => .nil
  | [e], h => by
      rw [memberListing]
      exact Normal.signsApart h.1
  | e :: e' :: members, h => by
      have hhead := h.2.head?_listing (by simp) []
      rw [List.append_nil] at hhead
      have hrest := (Normal.signsApart h.1).append (NormalAll.signsApart h.2) fun _ => hhead
      rw [memberListing]
      exact hrest.append (.singleton _) fun _ => nofun

end

/-! ## Postfix order and normal expressions -/

/-- A normal expression within the bound is built from its listing. What is built from any tokens is
normal, and its listing is what is left of the tokens when pairs of signs are cancelled until none
remain. -/
theorem ofPostfixOrder_listing_inverse :
    (∀ e : Expr, e.Normal → e.height ≤ maxHeight → ofPostfixOrder e.listing = .ok e) ∧
    ∀ order e, ofPostfixOrder order = .ok e → e.Normal ∧
      ∀ ts, (ReflTransGen Cancels order ts ∧ ∀ us, ¬ Cancels ts us) ↔ ts = e.listing := by
  refine ⟨fun e => ofPostfixOrder_listing, fun order e h => ?_⟩
  have hn := normal_of_ofPostfixOrder h
  refine ⟨hn, fun ts => ⟨?_, ?_⟩⟩
  · rintro ⟨hts, hend⟩
    exact eq_of_cancels hts (cancels_of_ofPostfixOrder h) (signsApart_iff.mpr hend) hn.signsApart
  · rintro rfl
    exact ⟨cancels_of_ofPostfixOrder h, signsApart_iff.mp hn.signsApart⟩

end Expr

end DeskCalculator
