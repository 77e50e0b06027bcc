import GenericKernel.Paging.CloneRoot

/-!
# When a clone succeeds

* `Unfolds`, `NodeOk` — the nodes of the unfolding of the source to depth four, and what the clone
  checks at each of them.
* `planTable_built_iff` — on paper, a clone is built exactly when every node passes its checks and
  the nodes are no more than the limit and the frames left.
* `Budgeted` — a memory that hands out a known number of valid frames; `Funded` — what the replies
  of such a memory look like to the clone.
* `cloneTable_calls` — the shared counter bounds the calls to `allocate`, whatever the memory does.
-/

namespace GenericKernel.Paging

open GenericKernel.Lib

variable {σ ε : Type}

/-! ## The unfolding of the source -/

/-- The tables met below `source`, with their level and the tables above them. -/
inductive Unfolds (words : Words) (source : UInt64) : Nat → List UInt64 → UInt64 → Prop
  | root : Unfolds words source 4 [] source
  | link {level i : Nat} {path : List UInt64} {frame : UInt64} :
      Unfolds words source (level + 1) path frame → 1 < level + 1 → i < 512 →
      IsTable (words frame i) →
      Unfolds words source level (path ++ [frame]) (words frame i &&& ADDRESS)

/-- What the clone wants of one table: a valid address, not that of a table above it, no huge
entry at level 4, and clear reserved bits in the huge entries of levels 3 and 2. -/
structure NodeOk (words : Words) (level : Nat) (path : List UInt64) (frame : UInt64) : Prop where
  valid : frame ≠ 0 ∧ frame &&& ~~~ADDRESS = 0
  acyclic : frame ∉ path
  huge : ∀ i < 512, words frame i &&& PRESENT ≠ 0 → words frame i &&& HUGE ≠ 0 →
    level ≠ 4 ∧ (level = 3 → words frame i &&& 0x3fff_e000 = 0) ∧
      (level = 2 → words frame i &&& 0x1f_e000 = 0)

/-- The same over a whole subtree, as the recursion meets it. -/
def SoundTree (words : Words) : Nat → List UInt64 → UInt64 → Prop
  | 0, _, _ => True
  | below + 1, path, frame => ValidFrame frame ∧ frame ∉ path ∧ ∀ i < 512,
      match entryKind (below + 1) (words frame i) with
      | .keep => True
      | .bad => False
      | .table child => SoundTree words below (path ++ [frame]) child

/-- What `SoundTree` asks of one entry. -/
def SoundEntry (words : Words) (below : Nat) (path : List UInt64) (entry : UInt64) : Prop :=
  match entryKind (below + 1) entry with
  | .keep => True
  | .bad => False
  | .table child => SoundTree words below path child

variable {words : Words} {path : List UInt64} {frame entry source : UInt64} {level limit b : Nat}

theorem soundTree_succ {below : Nat} :
    SoundTree words (below + 1) path frame ↔ ValidFrame frame ∧ frame ∉ path ∧
      ∀ i < 512, SoundEntry words below (path ++ [frame]) (words frame i) := Iff.rfl

theorem validFrame_iff : ValidFrame frame ↔ frame ≠ 0 ∧ frame &&& ~~~ADDRESS = 0 := by
  unfold ValidFrame
  rw [not_or, not_not]

theorem entryKind_bad : entryKind level entry = .bad ↔
    entry &&& PRESENT ≠ 0 ∧ 1 < level ∧ entry &&& HUGE ≠ 0 ∧
      (level = 4 ∨ entry &&& reservedBits level ≠ 0) := by
  unfold entryKind
  by_cases hpresent : entry &&& PRESENT ≠ 0 ∧ 1 < level
  · rw [if_pos hpresent]
    by_cases hhuge : entry &&& HUGE ≠ 0
    · rw [if_pos hhuge]
      by_cases hbad : level = 4 ∨ entry &&& reservedBits level ≠ 0
      · rw [if_pos hbad]
        exact ⟨fun _ => ⟨hpresent.1, hpresent.2, hhuge, hbad⟩, fun _ => rfl⟩
      · rw [if_neg hbad]
        exact ⟨fun h => (nomatch h), fun h => absurd h.2.2.2 hbad⟩
    · rw [if_neg hhuge]
      exact ⟨fun h => (nomatch h), fun h => absurd h.2.2.1 hhuge⟩
  · rw [if_neg hpresent]
    exact ⟨fun h => (nomatch h), fun h => absurd ⟨h.1, h.2.1⟩ hpresent⟩

theorem entryKind_of_isTable (hlevel : 1 < level) (h : IsTable entry) :
    entryKind level entry = .table (entry &&& ADDRESS) := by
  unfold entryKind
  rw [if_pos ⟨h.1, hlevel⟩, if_neg (not_not.mpr h.2)]

theorem Unfolds.level_le (h : Unfolds words source level path frame) : 0 < level ∧ level ≤ 4 := by
  induction h with
  | root => exact ⟨by decide, le_refl 4⟩
  | link _ hlevel _ _ ih => omega

/-- The huge entries of a table are fine exactly when the clone calls none of them bad. -/
theorem huge_iff_not_bad (hlevel : level ≤ 4) :
    (entry &&& PRESENT ≠ 0 → entry &&& HUGE ≠ 0 →
      level ≠ 4 ∧ (level = 3 → entry &&& 0x3fff_e000 = 0) ∧
        (level = 2 → entry &&& 0x1f_e000 = 0)) ↔ (1 < level → entryKind level entry ≠ .bad) := by
  simp only [ne_eq, entryKind_bad]
  constructor
  · rintro h hpos ⟨hpresent, -, hhuge, hbad⟩
    obtain ⟨hfour, hthree, htwo⟩ := h hpresent hhuge
    rcases hbad with hbad | hbad
    · exact hfour hbad
    · unfold reservedBits at hbad
      by_cases hlevel3 : level = 3
      · rw [if_pos hlevel3] at hbad
        exact hbad (hthree hlevel3)
      · rw [if_neg hlevel3] at hbad
        exact hbad (htwo (by omega))
  · intro h hpresent hhuge
    refine ⟨fun hfour => ?_, fun hthree => ?_, fun htwo => ?_⟩
    · exact h (by omega) ⟨hpresent, by omega, hhuge, .inl hfour⟩
    · by_contra hbits
      refine h (by omega) ⟨hpresent, by omega, hhuge, .inr ?_⟩
      rw [reservedBits, if_pos hthree]
      exact hbits
    · by_contra hbits
      refine h (by omega) ⟨hpresent, by omega, hhuge, .inr ?_⟩
      rw [reservedBits, if_neg (by omega)]
      exact hbits

/-- **The recursion checks the unfolding.** -/
theorem soundTree_iff :
    SoundTree words 4 [] source ↔
      ∀ level path frame, Unfolds words source level path frame → NodeOk words level path frame := by
  constructor
  · intro hsound
    have hsub : ∀ {level path frame}, Unfolds words source level path frame →
        SoundTree words level path frame := by
      intro level path frame h
      induction h with
      | root => exact hsound
      | link _ hlevel hi htable ih =>
        have hentry := ih.2.2 _ hi
        rw [entryKind_of_isTable hlevel htable] at hentry
        exact hentry
    intro level path frame h
    obtain ⟨hpos, hle⟩ := h.level_le
    obtain ⟨below, rfl⟩ := Nat.exists_eq_add_of_le' hpos
    obtain ⟨hvalid, hacyclic, hentries⟩ := hsub h
    refine ⟨validFrame_iff.mp hvalid, hacyclic, fun i hi => ?_⟩
    refine (huge_iff_not_bad hle).mpr fun _ hbad => ?_
    have hentry := hentries i hi
    rw [hbad] at hentry
    exact hentry
  · intro hnodes
    have hsub : ∀ level path frame, Unfolds words source level path frame →
        SoundTree words level path frame := by
      intro level
      induction level with
      | zero => exact fun _ _ _ => trivial
      | succ below ih =>
        intro path frame h
        have hnode := hnodes _ _ _ h
        refine ⟨validFrame_iff.mpr hnode.valid, hnode.acyclic, fun i hi => ?_⟩
        cases hkind : entryKind (below + 1) (words frame i) with
        | keep => trivial
        | bad =>
          have hlevel := (entryKind_bad.mp hkind).2.1
          exact (huge_iff_not_bad h.level_le.2).mp (hnode.huge i hi) hlevel hkind
        | table child =>
          obtain ⟨hlevel, htable, rfl⟩ := entryKind_table hkind
          exact ih _ _ (.link h hlevel hi htable)
    exact hsub 4 [] source .root

/-! ## The plan -/

/-- A supply of `b` valid frames. -/
def Supply (frames : Nat → Option UInt64) (b : Nat) : Prop :=
  ∀ i, (i < b → ∃ f, frames i = some f ∧ ValidFrame f) ∧ (b ≤ i → frames i = none)

/-- A plan that is carried out, with `n` allocations in all. -/
def BuiltWith (plan : Plan × Nat) (n : Nat) : Prop := ∃ root order, plan = (.built root order, n)

/-- The loop over the rest of a table is carried out exactly when every entry is sound and the
tables below the entries are within the `cap`. -/
theorem planEntries_built_iff {below cap : Nat} {destination : UInt64}
    {child : UInt64 → Nat → Plan × Nat}
    (hchild : ∀ entry frame count n, entryKind (below + 1) entry = .table frame → count ≤ cap →
      (BuiltWith (child frame count) n ↔ SoundTree words below path frame ∧
        n = count + (treeFrames words below frame).length ∧ n ≤ cap))
    (rest : List Nat) : ∀ (closed : List UInt64) (count n : Nat), count ≤ cap →
      (BuiltWith (planEntries words (below + 1) child source destination rest closed count) n ↔
        (∀ i ∈ rest, SoundEntry words below path (words source i)) ∧
        n = count + (rest.flatMap fun i => entryFrames words below (words source i)).length ∧
        n ≤ cap) := by
  induction rest with
  | nil =>
    intro closed count n hcount
    constructor
    · rintro ⟨root, order, h⟩
      obtain rfl : count = n := (Prod.mk.inj h).2
      exact ⟨fun i hi => absurd hi List.not_mem_nil, rfl, hcount⟩
    · rintro ⟨-, rfl, -⟩
      exact ⟨_, _, rfl⟩
  | cons i rest ih =>
    intro closed count n hcount
    rw [List.flatMap_cons, List.length_append, List.forall_mem_cons]
    unfold SoundEntry
    rw [planEntries]
    cases hkind : entryKind (below + 1) (words source i) with
    | keep =>
      have hnone : entryFrames words below (words source i) = [] :=
        if_neg (not_isTable_of_keep hkind)
      simp only [hnone, List.length_nil, Nat.zero_add, true_and]
      exact ih closed count n hcount
    | bad =>
      constructor
      · rintro ⟨root, order, h⟩
        cases (Prod.mk.inj h).1
      · exact fun h => absurd h.1.1 id
    | table frame =>
      obtain ⟨hlevel, htable, rfl⟩ := entryKind_table hkind
      have hframes : entryFrames words below (words source i) =
          treeFrames words below (words source i &&& ADDRESS) := if_pos ⟨hlevel, htable⟩
      rw [hframes]
      dsimp only
      have hthis := fun n' => hchild (words source i) _ count n' hkind hcount
      cases hplan : child (words source i &&& ADDRESS) count with
      | mk plan count' =>
        cases plan with
        | undone e order =>
          -- the child fails, and with it the table
          constructor
          · rintro ⟨root, order', h⟩
            cases (Prod.mk.inj h).1
          · rintro ⟨⟨hsound, -⟩, hn, hle⟩
            obtain ⟨root, order', h⟩ := (hthis _).mpr ⟨hsound, rfl, by omega⟩
            rw [hplan] at h
            cases (Prod.mk.inj h).1
        | built root order =>
          obtain ⟨hsound, hcount', hle'⟩ := (hthis count').mp ⟨root, order, hplan⟩
          rw [ih _ count' n hle']
          constructor
          · rintro ⟨hrest, hn, hle⟩
            exact ⟨⟨hsound, hrest⟩, by omega, hle⟩
          · rintro ⟨⟨-, hrest⟩, hn, hle⟩
            exact ⟨hrest, by omega, hle⟩

/-- **When a clone is built**, on paper: the tree is sound, and its tables are within the limit
and the supply. -/
theorem planTable_built_iff {frames : Nat → Option UInt64} (hsupply : Supply frames b)
    (level : Nat) : 0 < level → ∀ (source : UInt64)
    (path : List UInt64) (count n : Nat), count ≤ min limit b →
    (BuiltWith (planTable words frames limit level source path count) n ↔
      SoundTree words level path source ∧
        n = count + (treeFrames words level source).length ∧ n ≤ min limit b) := by
  induction level with
  | zero => exact fun h => absurd h (by decide)
  | succ below ih =>
    intro _ source path count n hcount
    have hfails : ∀ {e : CloneError} {order : List UInt64} {k : Nat},
        ¬ BuiltWith (.undone e order, k) n := by
      rintro e order k ⟨root, order', h⟩
      exact nomatch (Prod.mk.inj h).1
    rw [planTable_succ, soundTree_succ, treeFrames_succ, List.length_append, List.length_singleton]
    by_cases hvalid : ValidFrame source
    case neg =>
      rw [if_pos hvalid]
      exact ⟨fun h => absurd h hfails, fun h => absurd h.1.1 hvalid⟩
    rw [if_neg (not_not.mpr hvalid)]
    by_cases hcycle : source ∈ path
    case pos =>
      rw [if_pos hcycle]
      exact ⟨fun h => absurd h hfails, fun h => absurd hcycle h.1.2.1⟩
    rw [if_neg hcycle]
    by_cases hlimit : count = limit
    case pos =>
      rw [if_pos hlimit]
      exact ⟨fun h => absurd h hfails, fun h => by omega⟩
    rw [if_neg hlimit]
    by_cases hbudget : count < b
    case neg =>
      rw [(hsupply count).2 (Nat.le_of_not_lt hbudget)]
      exact ⟨fun h => absurd h hfails, fun h => by omega⟩
    obtain ⟨destination, hframe, hdest⟩ := (hsupply count).1 hbudget
    rw [hframe]
    dsimp only
    rw [if_neg (not_not.mpr hdest)]
    unfold loopPlan
    rw [planEntries_built_iff (fun entry frame count n hkind hle =>
      ih (by have := (entryKind_table hkind).1; omega) frame (path ++ [source]) count n hle)
      tableIndices [] (count + 1) n (by omega)]
    constructor
    · rintro ⟨hentries, hn, hle⟩
      exact ⟨⟨hvalid, hcycle, fun i hi => hentries i (mem_tableIndices.mpr hi)⟩, by omega, hle⟩
    · rintro ⟨⟨-, -, hentries⟩, hn, hle⟩
      exact ⟨fun i hi => hentries i (mem_tableIndices.mp hi), by omega, hle⟩

/-! ## A budget of frames -/

/-- In the states `ready`, a memory with `budget` frames left, all of them valid. Giving a frame
back may or may not return it to the budget. -/
structure Budgeted (memory : Handler TableOp.Reply σ ε) (ready : σ → Prop) (budget : σ → Nat) :
    Prop where
  some : ∀ m frame m', ready m → memory .allocate m = .ok (some frame, m') →
    ValidFrame frame ∧ ready m' ∧ budget m = budget m' + 1
  none : ∀ m m', ready m → memory .allocate m = .ok (none, m') →
    ready m' ∧ budget m = 0 ∧ budget m' = 0
  write : ∀ m frame index entry m', ready m → memory (.write frame index entry) m = .ok ((), m') →
    ready m' ∧ budget m' = budget m

/-- The replies so far come from a budget of `b` frames. -/
structure Funded (ready : σ → Prop) (budget : σ → Nat) (b : Nat) (m : σ) (v : View) : Prop where
  replies : ∀ i r, v.replies[i]? = some r →
    (i < b → ∃ f, r = some f ∧ ValidFrame f) ∧ (b ≤ i → r = none)
  left : v.released = [] → ready m ∧ budget m = b - v.replies.length

theorem Funded.allocate {memory : Handler TableOp.Reply σ ε} {ready : σ → Prop} {budget : σ → Nat}
    (hb : Budgeted memory ready budget) {m m' : σ} {v v' : View} {reply : Option UInt64}
    (h : Funded ready budget b m v) (hok : memory .allocate m = .ok (reply, m'))
    (hstart : v.released = []) (hreplies : v'.replies = v.replies ++ [reply]) :
    Funded ready budget b m' v' := by
  obtain ⟨hready, hleft⟩ := h.left hstart
  have hlength : v'.replies.length = v.replies.length + 1 := by
    rw [hreplies, List.length_append, List.length_singleton]
  refine ⟨fun i r hi => ?_, fun _ => ?_⟩
  · rw [hreplies] at hi
    rcases Nat.lt_trichotomy i v.replies.length with hlt | rfl | hgt
    · rw [List.getElem?_append_left hlt] at hi
      exact h.replies i r hi
    · rw [List.getElem?_concat_length] at hi
      obtain rfl := Option.some.inj hi
      cases reply with
      | none =>
        have hempty := (hb.none m m' hready hok).2.1
        exact ⟨fun _ => by omega, fun _ => rfl⟩
      | some frame =>
        obtain ⟨hvalid, -, hspent⟩ := hb.some m frame m' hready hok
        exact ⟨fun _ => ⟨frame, rfl, hvalid⟩, fun _ => by omega⟩
    · rw [List.getElem?_eq_none (by rw [← hreplies]; omega)] at hi
      cases hi
  · cases reply with
    | none =>
      obtain ⟨hready', hempty, hempty'⟩ := hb.none m m' hready hok
      exact ⟨hready', by omega⟩
    | some frame =>
      obtain ⟨-, hready', hspent⟩ := hb.some m frame m' hready hok
      exact ⟨hready', by omega⟩

/-- A budgeted memory under contract refines the clone's view, budget included. -/
theorem Contract.refines_budgeted {memory : Handler TableOp.Reply σ ε}
    {live owned : σ → Set UInt64} {words : σ → Words} {ready : σ → Prop} {budget : σ → Nat}
    (h : Contract memory live owned words) (hb : Budgeted memory ready budget) (tables : Set UInt64)
    (b : Nat) : Refines memory (viewSpec tables anyRoom ε) fun m v =>
      Sees live owned words tables m v ∧ Funded ready budget b m v := by
  intro m v op ⟨hsees, hfunded⟩ hpre
  rcases h.refines tables m v op hsees hpre with ⟨r, m', v', hok, hpost, hsees'⟩ | ⟨e, hfail, he⟩
  · refine .inl ⟨r, m', v', hok, hpost, hsees', ?_⟩
    cases op with
    | allocate => exact hfunded.allocate hb hok hpre hpost.1
    | release frame =>
      obtain ⟨_, hreplies, hreleased, _⟩ := hpost
      refine ⟨fun i r hi => hfunded.replies i r (by rw [← hreplies]; exact hi), fun hnil => ?_⟩
      rw [hreleased] at hnil
      exact absurd hnil (by simp)
    | read frame index =>
      obtain ⟨_, rfl⟩ := hpost
      have hlive : frame ∈ live m := by
        rw [hsees.live_eq]
        exact hpre.1
      rw [h.read m frame hlive index hpre.2] at hok
      obtain rfl : m = m' := (Prod.mk.inj (Except.ok.inj hok)).2
      exact hfunded
    | write frame index entry =>
      obtain rfl : v' = v.set frame index entry := hpost
      refine ⟨hfunded.replies, fun hnil => ?_⟩
      obtain ⟨hready, hleft⟩ := hfunded.left hnil
      obtain ⟨hready', hsame⟩ := hb.write m frame index entry m' hready hok
      exact ⟨hready', hsame.trans hleft⟩
  · exact .inr ⟨e, hfail, he⟩

/-! ## Calls to `allocate` -/

def allocateCalls (log : List (Event TableOp.Reply)) : Nat :=
  log.countP fun event => event.op = .allocate

/-- Any memory at all; the state counts the calls to `allocate`. -/
def callSpec (ε : Type) : Spec TableOp.Reply Nat ε where
  pre _ _ := True
  post n op _ n' := n' = if op = .allocate then n + 1 else n
  fail _ _ _ := True

theorem trace_calls {n n' : Nat} {log : List (Event TableOp.Reply)}
    (h : (callSpec ε).Trace n log n') : n' = n + allocateCalls log := by
  induction h with
  | nil n => rfl
  | @cons n n₁ n' op r log _ hpost _ ih =>
    have hpost' : n₁ = if op = .allocate then n + 1 else n := hpost
    rw [ih, hpost']
    unfold allocateCalls
    rw [List.countP_cons]
    by_cases hop : op = .allocate
    · rw [if_pos hop, if_pos (by simpa using hop)]
      omega
    · rw [if_neg hop, if_neg (by simpa using hop)]
      omega

section Calls

variable {E : ε → Nat → Prop} {n : Nat}

theorem call_other {op : TableOp} (hop : op ≠ .allocate) {Q : TableOp.Reply op → Nat → Prop}
    (hE : ∀ e, E e n) (h : ∀ r, Q r n) :
    (Prog.perform op : TableProg _).wp (callSpec ε) Q E n := by
  refine ⟨trivial, fun r n' hn' => ?_, fun e _ => hE e⟩
  have hsame : n' = n := hn'.trans (if_neg hop)
  rw [hsame]
  exact h r

theorem releaseTree_calls (level : Nat) (frame : UInt64) (hE : ∀ e, E e n) :
    (releaseTree level frame).wp (callSpec ε) (fun _ n' => n' = n) E n := by
  induction level generalizing frame with
  | zero => exact call_other (by simp) hE fun _ => rfl
  | succ below ih =>
    have hrelease : ∀ frame : UInt64,
        (release frame).wp (callSpec ε) (fun _ n' => n' = n) E n :=
      fun _ => call_other (by simp) hE fun _ => rfl
    rw [releaseTree]
    by_cases hlevel : 1 < below + 1
    · simp only [if_pos hlevel]
      rw [Prog.wp_bind]
      refine Prog.wp_mono (Prog.wp_forEach (fun _ n' => n' = n) rfl ?_) ?_ fun _ _ he => he
      · rintro before index after n' - rfl
        rw [Prog.wp_bind]
        refine call_other (by simp) hE fun entry => ?_
        split
        · exact ih _
        · rfl
      · rintro _ n' rfl
        exact hrelease frame
    · simp only [if_neg hlevel]
      exact hrelease frame

/-- What a clone does to the number of calls: the counter keeps it, and it stays at or below the
limit. -/
def CountsTo (limit : Nat) {α : Type} (r : Except CloneError α × CloneState) (n' : Nat) : Prop :=
  n' ≤ limit ∧ ∀ a, r.1 = .ok a → r.2.count = n'

theorem cloneEntries_calls
    {child : UInt64 → CloneState → TableProg (Except CloneError UInt64 × CloneState)}
    (hE : ∀ e n, n ≤ limit → E e n)
    (hchild : ∀ source st, st.count ≤ limit →
      (child source st).wp (callSpec ε) (CountsTo limit) E st.count)
    (source destination : UInt64) (rest : List Nat) :
    ∀ st : CloneState, st.count ≤ limit →
      (cloneEntries level child source destination rest st).wp (callSpec ε) (CountsTo limit) E
        st.count := by
  induction rest with
  | nil => exact fun st hst => ⟨hst, fun _ _ => rfl⟩
  | cons index rest ih =>
    intro st hst
    -- storing the replacement and going on
    have hgo : ∀ (replacement : UInt64) (st : CloneState), st.count ≤ limit →
        (do write destination index replacement
            cloneEntries level child source destination rest st).wp (callSpec ε) (CountsTo limit) E
          st.count := by
      intro replacement st hst
      rw [Prog.wp_bind]
      exact call_other (by simp) (fun e => hE e _ hst) fun _ => ih st hst
    have hstop : ∀ (e : CloneError) (st : CloneState) (n : Nat), n ≤ limit →
        CountsTo limit ((.error e, st) : Except CloneError Unit × CloneState) n :=
      fun e st n hn => ⟨hn, fun a ha => nomatch ha⟩
    rw [cloneEntries, Prog.wp_bind]
    refine call_other (by simp) (fun e => hE e _ hst) fun entry => ?_
    rw [Prog.wp_bind, cloneEntry_eq]
    cases entryKind level entry with
    | keep => exact hgo entry st hst
    | bad => exact hstop _ st _ hst
    | table frame =>
      dsimp only
      rw [Prog.wp_bind]
      refine Prog.wp_mono (hchild frame st hst) ?_ fun _ _ he => he
      rintro ⟨result, st'⟩ n' ⟨hle, hcount⟩
      cases result with
      | error e => exact hstop e st' n' hle
      | ok root =>
        obtain rfl : st'.count = n' := hcount root rfl
        exact hgo _ st' hle

/-- **The counter bounds the calls to `allocate`.** -/
theorem cloneTable_calls (hE : ∀ e n, n ≤ limit → E e n) (level : Nat) :
    ∀ (source : UInt64) (st : CloneState), st.count ≤ limit →
      (cloneTable limit level source st).wp (callSpec ε) (CountsTo limit) E st.count := by
  have hstop : ∀ (e : CloneError) (st : CloneState) (n : Nat), n ≤ limit →
      CountsTo limit ((.error e, st) : Except CloneError UInt64 × CloneState) n :=
    fun e st n hn => ⟨hn, fun a ha => nomatch ha⟩
  induction level with
  | zero => exact fun source st hst => hstop _ st _ hst
  | succ below ih =>
    intro source st hst
    unfold cloneTable
    dsimp only
    split
    · exact hstop _ _ _ hst
    split
    · exact hstop _ _ _ hst
    split
    · exact hstop _ _ _ hst
    rename_i hlimit
    have hroom : st.count + 1 ≤ limit := by omega
    rw [Prog.wp_bind]
    refine ⟨trivial, fun reply n' hn' => ?_, fun e _ => hE e _ hst⟩
    obtain rfl : n' = st.count + 1 := hn'
    cases reply with
    | none => exact hstop _ _ _ hroom
    | some destination =>
      rw [Prog.wp_done]
      dsimp only
      split
      · rw [Prog.wp_bind]
        exact call_other (by simp) (fun e => hE e _ hroom) fun _ => hstop _ _ _ hroom
      · rw [Prog.wp_bind]
        refine Prog.wp_mono (Prog.wp_forEach (fun _ n' => n' = st.count + 1) rfl ?_) ?_
          fun _ _ he => he
        · rintro before index after n' - rfl
          exact call_other (by simp) (fun e => hE e _ hroom) fun _ => rfl
        · rintro _ n' rfl
          rw [Prog.wp_bind]
          refine Prog.wp_mono (cloneEntries_calls hE ih source destination tableIndices
            ⟨st.ancestors.setIfInBounds (4 - (below + 1)) source, st.count + 1⟩ hroom) ?_
            fun _ _ he => he
          rintro ⟨result, st'⟩ n' ⟨hle, hcount⟩
          cases result with
          | ok _ => exact ⟨hle, fun _ _ => hcount () rfl⟩
          | error e =>
            dsimp only
            rw [Prog.wp_bind]
            refine Prog.wp_mono (releaseTree_calls _ destination fun e => hE e _ hle) ?_
              fun _ _ he => he
            rintro _ n'' rfl
            exact hstop e st' _ hle

end Calls

/-- Whatever the memory does, a clone calls `allocate` at most `limit` times. -/
theorem cloneRoot_calls (memory : Handler TableOp.Reply σ ε) (limit : Nat) (source : UInt64)
    (m : σ) : allocateCalls ((cloneRoot limit source).run memory m).1 ≤ limit := by
  have hrefines : Refines memory (callSpec ε) fun _ _ => True := by
    intro m n op _ _
    cases hop : memory op m with
    | error e => exact .inr ⟨e, rfl, trivial⟩
    | ok result => exact .inl ⟨result.1, result.2, _, rfl, rfl, trivial⟩
  have hwp : (cloneRoot limit source).wp (callSpec ε) (fun _ n' => n' ≤ limit)
      (fun _ n' => n' ≤ limit) 0 := by
    rw [cloneRoot, Prog.wp_bind]
    refine Prog.wp_mono (cloneTable_calls (fun _ _ h => h) 4 source ⟨Vector.replicate 4 0, 0⟩
      (Nat.zero_le _)) ?_ fun _ _ he => he
    rintro ⟨result, st⟩ n' ⟨hle, -⟩
    cases result with
    | error e => exact hle
    | ok root => exact hle
  have hstart : (fun (_ : σ) (_ : Nat) => True) m 0 := trivial
  rcases run_sound hrefines hstart hwp with
    ⟨log, _, _, n', hrun, htrace, -, hle⟩ | ⟨log, _, _, n', hrun, htrace, -, hle⟩
  · rw [hrun]
    show allocateCalls log ≤ limit
    have hcalls := trace_calls htrace
    omega
  · rw [hrun]
    show allocateCalls log ≤ limit
    have hcalls := trace_calls htrace
    omega

/-- A supply that begins with the replies so far. -/
theorem Funded.exists_supply {ready : σ → Prop} {budget : σ → Nat} {m : σ} {v : View}
    (h : Funded ready budget b m v) : ∃ frames, Agrees frames v ∧ Supply frames b := by
  refine ⟨fun i => (v.replies[i]?).getD (if i < b then some 0x1000 else none), ?_, fun i => ?_⟩
  · intro i r hi
    simp [hi]
  · cases hi : v.replies[i]? with
    | none =>
      refine ⟨fun hlt => ⟨0x1000, ?_, by decide⟩, fun hle => ?_⟩
      · simp [hi, hlt]
      · simp [hi, Nat.not_lt.mpr hle]
    | some r => simpa [hi] using h.replies i r hi

/-- **When a clone succeeds.** On a memory under contract with a budget of valid frames, `clone_root`
returns; it returns `Ok` exactly when every table of the unfolding passes its checks and the number
of tables is within `LIMIT` and the budget. It never calls `allocate` more than `LIMIT` times. -/
theorem cloneRoot_ok_iff {memory : Handler TableOp.Reply σ ε} {live owned : σ → Set UInt64}
    {words : σ → Words} {ready : σ → Prop} {budget : σ → Nat} (h : Contract memory live owned words)
    (hb : Budgeted memory ready budget) (limit : Nat) (source : UInt64) (m : σ) (hready : ready m)
    (hsource : sourceTables (words m) 4 source ⊆ live m) :
    ∃ log r m', (cloneRoot limit source).run memory m = (log, .ok (r, m')) ∧
      ((∃ root, r = .ok root) ↔
        (∀ level path frame, Unfolds (words m) source level path frame →
          NodeOk (words m) level path frame) ∧
        (treeFrames (words m) 4 source).length ≤ min limit (budget m)) ∧
      allocateCalls log ≤ limit := by
  have hfresh : Funded ready budget (budget m) m (View.fresh (words m)) := by
    refine ⟨fun i r hi => ?_, fun _ => ⟨hready, rfl⟩⟩
    rw [show (View.fresh (words m)).replies = [] from rfl] at hi
    cases hi
  obtain ⟨log, r, m', v', hrun, _, ⟨_, hfunded⟩, hpost⟩ := run_cloneRoot_of_refines limit hsource
    (h.refines_budgeted hb (live m) (budget m)) ⟨Sees.fresh live owned words m, hfresh⟩
  refine ⟨log, r, m', hrun, ?_, ?_⟩
  · obtain ⟨frames, hagrees, hsupply⟩ := hfunded.exists_supply
    have hiff : ∀ n, BuiltWith (planTable (words m) frames limit 4 source [] 0) n ↔ _ := fun n =>
      planTable_built_iff hsupply 4 (by decide) source [] 0 n (Nat.zero_le _)
    rw [← soundTree_iff]
    rcases hpost with ⟨root, order, fs', n, hr, _, hplan⟩ | ⟨e, order, fs', n, hr, _, hplan⟩
    · obtain ⟨hsound, hn, hle⟩ := (hiff n).mp ⟨root, order, hplan frames hagrees⟩
      exact ⟨fun _ => ⟨hsound, by omega⟩, fun _ => ⟨_, hr⟩⟩
    · refine ⟨fun ⟨root, hroot⟩ => ?_, fun ⟨hsound, hle⟩ => ?_⟩
      · rw [hr] at hroot
        cases hroot
      · obtain ⟨root, order', hbuilt⟩ := (hiff _).mpr ⟨hsound, rfl, by omega⟩
        exact nomatch (Prod.mk.inj ((hplan frames hagrees).symm.trans hbuilt)).1
  · have hcalls := cloneRoot_calls memory limit source m
    rw [hrun] at hcalls
    exact hcalls

/-! ## The memory of the tests -/

theorem validFrame_ofNat {n : Nat} (hpos : 0 < n) (hlt : n < 2 ^ 52) (hdvd : 4096 ∣ n) :
    ValidFrame (UInt64.ofNat n) := by
  have hword : (UInt64.ofNat n).toNat = n := UInt64.toNat_ofNat_of_lt' (by
    show n < 2 ^ 64
    omega)
  rw [validFrame_iff]
  constructor
  · intro hzero
    have := congrArg UInt64.toNat hzero
    rw [hword] at this
    exact hpos.ne' this
  · apply UInt64.toNat_inj.mp
    rw [UInt64.toNat_and, hword, show (~~~ADDRESS).toNat = 0xfff0_0000_0000_0fff by decide]
    obtain ⟨k, rfl⟩ := hdvd
    -- a bit of the frame lies between 12 and 51, where the mask has none
    refine Nat.eq_of_testBit_eq fun i => ?_
    rw [Nat.testBit_and, show (0 : UInt64).toNat = 0 by rfl, Nat.zero_testBit]
    by_cases hlow : i < 12
    · rw [show 4096 * k = 2 ^ 12 * k by rfl, Nat.testBit_two_pow_mul, decide_eq_false (by omega)]
      rfl
    · by_cases hhigh : i < 52
      · have hmask : ∀ j < 52, 12 ≤ j → Nat.testBit 0xfff0_0000_0000_0fff j = false := by decide
        rw [hmask i hhigh (by omega), Bool.and_false]
      · rw [Nat.testBit_lt_two_pow (lt_of_lt_of_le hlt (Nat.pow_le_pow_right (by omega)
          (Nat.le_of_not_lt hhigh)))]
        rfl

namespace Memory

/-- The next frames are valid ones, as many as the budget. -/
def Stocked (m : Memory) : Prop :=
  0 < m.next ∧ 4096 ∣ m.next ∧ m.next + 4096 * m.budget ≤ 2 ^ 52

theorem budgeted : Budgeted handler Stocked fun m => m.budget := by
  refine ⟨fun m frame m' hm hok => ?_, fun m m' hm hok => ?_, fun m frame index entry m' hm hok => ?_⟩
  · obtain ⟨hpos, hdvd, hle⟩ := hm
    unfold handler at hok
    dsimp only at hok
    split at hok
    · rename_i hfree
      obtain ⟨hframe, rfl⟩ := Prod.mk.inj (Except.ok.inj hok)
      obtain rfl := Option.some.inj hframe
      refine ⟨validFrame_ofNat hpos (by omega) hdvd, ⟨?_, ?_, ?_⟩, ?_⟩
      · show 0 < m.next + 4096
        omega
      · exact (Nat.dvd_add_right hdvd).mpr (dvd_refl 4096)
      · show m.next + 4096 + 4096 * (m.budget - 1) ≤ 2 ^ 52
        omega
      · show m.budget = m.budget - 1 + 1
        omega
    · exact nomatch (Prod.mk.inj (Except.ok.inj hok)).1
  · obtain ⟨hpos, hdvd, hle⟩ := hm
    unfold handler at hok
    dsimp only at hok
    split at hok
    · exact nomatch (Prod.mk.inj (Except.ok.inj hok)).1
    · rename_i hfull
      obtain rfl := (Prod.mk.inj (Except.ok.inj hok)).2
      have hempty : m.budget = 0 := by
        by_contra hne
        exact hfull ⟨hne, by omega⟩
      exact ⟨⟨hpos, hdvd, hle⟩, hempty, hempty⟩
  · unfold handler at hok
    dsimp only at hok
    split at hok
    · obtain rfl := (Prod.mk.inj (Except.ok.inj hok)).2
      exact ⟨hm, rfl⟩
    · cases hok

end Memory

/-- A root that links one table, with room for both. -/
theorem cloneRoot_ok_iff_oneLink : ∃ log r m',
    (cloneRoot 16 0x1000).run Memory.handler (Memory.fixture 0x2003 2) = (log, .ok (r, m')) ∧
      ((∃ root, r = .ok root) ↔
        (∀ level path frame, Unfolds (Memory.fixture 0x2003 2).words 0x1000 level path frame →
          NodeOk (Memory.fixture 0x2003 2).words level path frame) ∧
        (treeFrames (Memory.fixture 0x2003 2).words 4 0x1000).length ≤ min 16 2) ∧
      allocateCalls log ≤ 16 :=
  cloneRoot_ok_iff Memory.contract Memory.budgeted 16 0x1000 (Memory.fixture 0x2003 2)
    ⟨by decide, by decide, by decide⟩ (Memory.sourceTables_fixture 2 fun _ => by decide)

end GenericKernel.Paging
