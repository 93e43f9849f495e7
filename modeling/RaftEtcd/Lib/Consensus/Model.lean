import Mathlib.Data.Set.Insert
import Mathlib.Logic.Function.Basic
import Mathlib.Logic.Relation
import RaftEtcd.Lib.Consensus.Basic

/-! An abstract protocol of leaders, votes and replicated logs. A node acts on its volatile state
and collects messages; what it says reaches the others only together with a write of its state to
disk, and a crash takes it back to the disk. A message that was sent can be received any number of
times. Two ghost tables remember, for each term, its leader and the log of that leader. -/
namespace Consensus

inductive Role where
  | follower | candidate | leader
  deriving DecidableEq

/-- Each message names its sender and the term it was said in. -/
inductive Msg (ι : Type*) (E : Type*) where
  | vote (src : ι) (term lastIndex lastTerm : ℕ)
  | grant (src cand : ι) (term : ℕ)
  | app (src : ι) (term prev prevTerm : ℕ) (ents : List E) (commit : ℕ)
  | ack (src : ι) (term index : ℕ)
  | beat (src dst : ι) (term commit : ℕ)

namespace Msg
variable {ι E : Type*}

def src : Msg ι E → ι
  | vote n _ _ _ | grant n _ _ | app n _ _ _ _ _ | ack n _ _ | beat n _ _ _ => n

def term : Msg ι E → ℕ
  | vote _ t _ _ | grant _ _ t | app _ t _ _ _ _ | ack _ t _ | beat _ _ t _ => t

end Msg

/-- What survives a crash. -/
structure Disk (ι : Type*) (E : Type*) where
  term : ℕ
  vote : Option ι
  log : List E
  commit : ℕ

@[ext] structure Node (ι : Type*) (E : Type*) where
  term : ℕ
  vote : Option ι
  role : Role
  log : List E
  commit : ℕ
  votes : Set ι
  matched : ι → ℕ
  out : Set (Msg ι E)

variable {ι E : Type*}

def Node.disk (a : Node ι E) : Disk ι E := ⟨a.term, a.vote, a.log, a.commit⟩

def Disk.node (d : Disk ι E) : Node ι E :=
  { term := d.term, vote := d.vote, role := .follower, log := d.log, commit := d.commit, votes := ∅
    matched := fun _ => 0, out := ∅ }

/-- The volatile state of a node that neither stands for election nor leads. -/
def Node.retire (a : Node ι E) : Node ι E :=
  { a with role := .follower, votes := ∅, matched := fun _ => 0 }

section LocalStep
variable (voters : Finset ι) (termOf : E → ℕ) (net : Set (Msg ι E)) (n : ι)

/-- A log that ends at `(li, lt)` is at least as up to date as `l`. -/
def UpToDate (l : List E) (li lt : ℕ) : Prop :=
  lastTerm termOf l < lt ∨ (lastTerm termOf l = lt ∧ l.length ≤ li)

/-- The messages a node may say together. A candidate that asks for votes grants its own, and a
leader that sends entries acknowledges them itself. -/
inductive CanSay (a : Node ι E) : Set (Msg ι E) → Prop
  | vote (hr : a.role = .candidate) :
      CanSay a {.vote n a.term a.log.length (lastTerm termOf a.log), .grant n n a.term}
  | app (prev len : ℕ) (hr : a.role = .leader) (hlen : prev + len ≤ a.log.length) :
      CanSay a {.app n a.term prev (termAt termOf a.log prev) ((a.log.drop prev).take len) a.commit,
        .ack n a.term (prev + len)}
  | beat (dst : ι) (c : ℕ) (hr : a.role = .leader) (hd : dst ≠ n) (hc : c ≤ a.commit)
      (hm : c ≤ a.matched dst) : CanSay a {.beat n dst a.term c}
  | ack (j : ℕ) (hj : j ≤ a.commit)
      (h : j = 0 ∨ ∃ src prev pt ents c, .app src a.term prev pt ents c ∈ net) :
      CanSay a {.ack n a.term j}

inductive LocalStep : Node ι E → Node ι E → Prop
  | stepDown (a : Node ι E) : LocalStep a a.retire
  | newTerm (a : Node ι E) (t : ℕ) (ht : a.term < t) :
      LocalStep a { a.retire with term := t, vote := none }
  | stand (a : Node ι E) :
      LocalStep a { a.retire with term := a.term + 1, vote := some n, role := .candidate }
  | tally (a : Node ι E) (m : ι) (hr : a.role = .candidate) (hm : m = n ∨ .grant m n a.term ∈ net) :
      LocalStep a { a with votes := insert m a.votes }
  | lead (a : Node ι E) (Q : Finset ι) (hn : n ∈ voters) (hr : a.role = .candidate) (hQ : ↑Q ⊆ a.votes)
      (hc : voters.card < 2 * Q.card) : LocalStep a { a.retire with role := .leader }
  | append (a : Node ι E) (es : List E) (hr : a.role = .leader) (hes : ∀ e ∈ es, termOf e = a.term) :
      LocalStep a { a with log := a.log ++ es }
  | castVote (a : Node ι E) (c : ι) (li lt : ℕ) (hn : n ∈ voters) (hm : .vote c a.term li lt ∈ net)
      (hv : a.vote = none ∨ a.vote = some c) (hu : UpToDate termOf a.log li lt) :
      LocalStep a { a with vote := some c, out := insert (.grant n c a.term) a.out }
  | say (a : Node ι E) (xs : Set (Msg ι E)) (h : CanSay termOf net n a xs) :
      LocalStep a { a with out := a.out ∪ xs }
  | recvApp (a : Node ι E) (src : ι) (prev pt : ℕ) (ents : List E) (c : ℕ) (log' : List E)
      (hr : a.role = .follower) (hm : .app src a.term prev pt ents c ∈ net) (hc : a.commit ≤ prev)
      (hp : termAt termOf a.log prev = pt) (hlog : Merge termOf a.log prev ents a.commit log')
      (hb : min c (prev + ents.length) ≤ log'.length) :
      LocalStep a
        { a with
          log := log'
          commit := max a.commit (min c (prev + ents.length))
          out := insert (.ack n a.term (prev + ents.length)) a.out }
  | recvAck (a : Node ι E) (m : ι) (j : ℕ) [DecidableEq ι] (hr : a.role = .leader) (hne : m ≠ n)
      (hm : .ack m a.term j ∈ net) :
      LocalStep a { a with matched := Function.update a.matched m (max (a.matched m) j) }
  | commit (a : Node ι E) (i : ℕ) (Q : Finset ι) (hr : a.role = .leader) (hi : a.commit ≤ i)
      (hl : i ≤ a.log.length) (hQ : Majority voters Q) (hm : ∀ m ∈ Q, m ≠ n → i ≤ a.matched m)
      (ht : termAt termOf a.log i = a.term) : LocalStep a { a with commit := i }
  | recvBeat (a : Node ι E) (src : ι) (c : ℕ) (hr : a.role = .follower) (hm : .beat src n a.term c ∈ net)
      (hc : c ≤ a.log.length) : LocalStep a { a with commit := max a.commit c }

end LocalStep

structure Sys (ι : Type*) (E : Type*) where
  node : ι → Node ι E
  disk : ι → Disk ι E
  net : Set (Msg ι E)
  tlog : ℕ → List E
  ldr : ℕ → Option ι

def Sys.init : Sys ι E where
  node _ := Disk.node ⟨0, none, [], 0⟩
  disk _ := ⟨0, none, [], 0⟩
  net := ∅
  tlog _ := []
  ldr _ := none

section System
variable [DecidableEq ι] (voters : Finset ι) (termOf : E → ℕ)

namespace Sys

/-- One node changes its volatile state; the tables follow a node that leads. -/
def setNode (s : Sys ι E) (n : ι) (b : Node ι E) : Sys ι E where
  node := Function.update s.node n b
  disk := s.disk
  net := s.net
  tlog := if b.role = .leader then Function.update s.tlog b.term b.log else s.tlog
  ldr := if b.role = .leader then Function.update s.ldr b.term (some n) else s.ldr

/-- The node writes its state to disk and hands out what it has said. -/
def flush (s : Sys ι E) (n : ι) : Sys ι E where
  node := Function.update s.node n { s.node n with out := ∅ }
  disk := Function.update s.disk n (s.node n).disk
  net := s.net ∪ (s.node n).out
  tlog := s.tlog
  ldr := s.ldr

def crash (s : Sys ι E) (n : ι) : Sys ι E where
  node := Function.update s.node n (s.disk n).node
  disk := s.disk
  net := s.net
  tlog := s.tlog
  ldr := s.ldr

/-- What a node has said and not lost: its messages on the net and those it still keeps. -/
def said (s : Sys ι E) (n : ι) : Set (Msg ι E) := s.net ∪ (s.node n).out

end Sys

inductive Step : Sys ι E → Sys ι E → Prop
  | act (s : Sys ι E) (n : ι) (b : Node ι E) (h : LocalStep voters termOf s.net n (s.node n) b) :
      Step s (s.setNode n b)
  | flush (s : Sys ι E) (n : ι) : Step s (s.flush n)
  | crash (s : Sys ι E) (n : ι) : Step s (s.crash n)

end System

section Components
namespace Sys
variable [DecidableEq ι]

theorem node_setNode (s : Sys ι E) (n : ι) (b : Node ι E) (m : ι) :
    (s.setNode n b).node m = if m = n then b else s.node m := Function.update_apply _ _ _ _

theorem node_flush (s : Sys ι E) (n m : ι) :
    (s.flush n).node m = if m = n then { s.node n with out := ∅ } else s.node m :=
  Function.update_apply _ _ _ _

theorem disk_flush (s : Sys ι E) (n m : ι) :
    (s.flush n).disk m = if m = n then (s.node n).disk else s.disk m := Function.update_apply _ _ _ _

theorem node_crash (s : Sys ι E) (n m : ι) :
    (s.crash n).node m = if m = n then (s.disk n).node else s.node m := Function.update_apply _ _ _ _

theorem ldr_setNode (s : Sys ι E) (n : ι) (b : Node ι E) (t : ℕ) :
    (s.setNode n b).ldr t = if b.role = .leader ∧ t = b.term then some n else s.ldr t := by
  by_cases h : b.role = .leader
  · simp [setNode, h, Function.update_apply]
  · simp [setNode, h]

theorem tlog_setNode (s : Sys ι E) (n : ι) (b : Node ι E) (t : ℕ) :
    (s.setNode n b).tlog t = if b.role = .leader ∧ t = b.term then b.log else s.tlog t := by
  by_cases h : b.role = .leader
  · simp [setNode, h, Function.update_apply]
  · simp [setNode, h]

theorem said_setNode_self (s : Sys ι E) (n : ι) (b : Node ι E) :
    (s.setNode n b).said n = s.net ∪ b.out := by
  rw [said, node_setNode, if_pos rfl]
  rfl

theorem said_setNode_ne (s : Sys ι E) {n m : ι} (b : Node ι E) (h : m ≠ n) :
    (s.setNode n b).said m = s.said m := by
  rw [said, node_setNode, if_neg h]
  rfl

end Sys

end Components

/-! What a local step can do, one fact for each part of the state. -/
section Effects
variable {voters : Finset ι} {termOf : E → ℕ} {net : Set (Msg ι E)} {n : ι} {a b : Node ι E}

theorem LocalStep.term_le (h : LocalStep voters termOf net n a b) : a.term ≤ b.term := by
  cases h with
  | newTerm t ht => exact ht.le
  | stand => exact Nat.le_succ _
  | _ => exact le_rfl

theorem LocalStep.commit_le (h : LocalStep voters termOf net n a b) : a.commit ≤ b.commit := by
  cases h with
  | recvApp => exact le_max_left _ _
  | commit i Q hr hi => exact hi
  | recvBeat => exact le_max_left _ _
  | _ => exact le_rfl

theorem LocalStep.vote_keep (h : LocalStep voters termOf net n a b) (ht : a.term = b.term)
    {c : ι} (hv : a.vote = some c) : b.vote = some c := by
  cases h with
  | newTerm t hlt =>
      simp only at ht
      omega
  | stand =>
      simp only at ht
      omega
  | castVote c' li lt hn hm hv' hu =>
      rcases hv' with hv' | hv'
      · rw [hv] at hv'
        cases hv'
      · rw [← hv, hv']
  | _ => exact hv

theorem LocalStep.out_subset (h : LocalStep voters termOf net n a b) : a.out ⊆ b.out := by
  cases h with
  | castVote => exact Set.subset_insert _ _
  | say => exact Set.subset_union_left
  | recvApp => exact Set.subset_insert _ _
  | _ => exact subset_rfl

/-- All but the vote, the tallies and the messages is as before. -/
structure Kept (a b : Node ι E) : Prop where
  term : b.term = a.term
  role : b.role = a.role
  log : b.log = a.log
  commit : b.commit = a.commit

variable (voters termOf net n a b) in
/-- The messages that a step from `a` to `b` can add to those already said. -/
inductive Fresh : Msg ι E → Prop
  | vote (hb : Kept a b) (hr : a.role = .candidate) (hg : .grant n n a.term ∈ b.out) :
      Fresh (.vote n a.term a.log.length (lastTerm termOf a.log))
  | ownGrant (hb : Kept a b) (hv : b.vote = a.vote) (hr : a.role = .candidate) : Fresh (.grant n n a.term)
  | grant (c : ι) (li lt : ℕ) (hb : Kept a b) (hv : b.vote = some c) (hn : n ∈ voters)
      (hm : .vote c a.term li lt ∈ net) (hu : UpToDate termOf a.log li lt) : Fresh (.grant n c a.term)
  | app (prev len : ℕ) (hb : Kept a b) (hr : a.role = .leader)
      (hlen : prev + len ≤ a.log.length) (ha : .ack n a.term (prev + len) ∈ b.out) :
      Fresh (.app n a.term prev (termAt termOf a.log prev) ((a.log.drop prev).take len) a.commit)
  | ownAck (j : ℕ) (hb : Kept a b) (hr : a.role = .leader) (hj : j ≤ a.log.length) :
      Fresh (.ack n a.term j)
  | oldAck (j : ℕ) (hb : Kept a b) (hj : j ≤ a.commit)
      (h : j = 0 ∨ ∃ src prev pt ents c, .app src a.term prev pt ents c ∈ net) : Fresh (.ack n a.term j)
  | ack (src : ι) (prev pt : ℕ) (ents : List E) (c : ℕ) (hb : b.term = a.term)
      (hm : .app src a.term prev pt ents c ∈ net) (hp : termAt termOf a.log prev = pt)
      (hlog : Merge termOf a.log prev ents a.commit b.log) : Fresh (.ack n a.term (prev + ents.length))
  | beat (dst : ι) (c : ℕ) (hb : Kept a b) (hr : a.role = .leader) (hd : dst ≠ n)
      (hc : c ≤ a.commit) (hm : c ≤ a.matched dst) : Fresh (.beat n dst a.term c)

theorem LocalStep.out_cases (h : LocalStep voters termOf net n a b) {x : Msg ι E} (hx : x ∈ b.out) :
    x ∈ a.out ∨ Fresh voters termOf net n a b x := by
  cases h with
  | castVote c li lt hn hm hv hu =>
      rcases hx with rfl | hx
      · exact Or.inr (.grant c li lt ⟨rfl, rfl, rfl, rfl⟩ rfl hn hm hu)
      · exact Or.inl hx
  | recvApp src prev pt ents c log' hr hm hc hp hlog hb =>
      rcases hx with rfl | hx
      · exact Or.inr (.ack src prev pt ents c rfl hm hp hlog)
      · exact Or.inl hx
  | say xs hs =>
      rcases hx with hx | hx
      · exact Or.inl hx
      · refine Or.inr ?_
        cases hs with
        | vote hr =>
            rcases hx with rfl | rfl
            · exact .vote ⟨rfl, rfl, rfl, rfl⟩ hr (Or.inr (Or.inr rfl))
            · exact .ownGrant ⟨rfl, rfl, rfl, rfl⟩ rfl hr
        | app prev len hr hlen =>
            rcases hx with rfl | rfl
            · exact .app prev len ⟨rfl, rfl, rfl, rfl⟩ hr hlen (Or.inr (Or.inr rfl))
            · exact .ownAck _ ⟨rfl, rfl, rfl, rfl⟩ hr hlen
        | beat dst c hr hd hc hm =>
            cases hx
            exact .beat dst c ⟨rfl, rfl, rfl, rfl⟩ hr hd hc hm
        | ack j hj hz =>
            cases hx
            exact .oldAck j ⟨rfl, rfl, rfl, rfl⟩ hj hz
  | _ => exact Or.inl hx

/-- New messages carry the current term and the name of their sender. -/
theorem Fresh.src_term {x : Msg ι E} (h : Fresh voters termOf net n a b x) :
    x.src = n ∧ x.term = a.term ∧ b.term = a.term := by
  cases h with
  | vote hb => exact ⟨rfl, rfl, hb.term⟩
  | ownGrant hb => exact ⟨rfl, rfl, hb.term⟩
  | grant c li lt hb => exact ⟨rfl, rfl, hb.term⟩
  | app prev len hb => exact ⟨rfl, rfl, hb.term⟩
  | ownAck j hb => exact ⟨rfl, rfl, hb.term⟩
  | oldAck j hb => exact ⟨rfl, rfl, hb.term⟩
  | ack src prev pt ents c hb => exact ⟨rfl, rfl, hb⟩
  | beat dst c hb => exact ⟨rfl, rfl, hb.term⟩

/-- A leader was one before or has just won a majority. -/
theorem LocalStep.role_leader (h : LocalStep voters termOf net n a b) (hb : b.role = .leader) :
    a.term = b.term ∧ (a.role = .leader ∨ (a.role = .candidate ∧ b.log = a.log ∧ n ∈ voters ∧
      ∃ Q : Finset ι, ↑Q ⊆ a.votes ∧ voters.card < 2 * Q.card)) := by
  cases h with
  | stepDown => cases hb
  | newTerm => cases hb
  | stand => cases hb
  | lead Q hn hr hQ hc => exact ⟨rfl, Or.inr ⟨hr, rfl, hn, Q, hQ, hc⟩⟩
  | _ => exact ⟨rfl, Or.inl hb⟩

theorem LocalStep.role_candidate (h : LocalStep voters termOf net n a b) (hb : b.role = .candidate) :
    b.log = a.log ∧ ((a.role = .candidate ∧ a.term = b.term) ∨ a.term < b.term) := by
  cases h with
  | stepDown => cases hb
  | newTerm => cases hb
  | stand => exact ⟨rfl, Or.inr (Nat.lt_succ_self _)⟩
  | lead => cases hb
  | append es hr hes =>
      simp only [hr] at hb
      cases hb
  | recvApp src prev pt ents c' log' hr hm hc hp hlog hb' =>
      simp only [hr] at hb
      cases hb
  | _ => exact ⟨rfl, Or.inl ⟨hb, rfl⟩⟩

/-- The log changes by an append of the leader or by a merge of received entries. -/
theorem LocalStep.log_cases (h : LocalStep voters termOf net n a b) :
    b.log = a.log ∨
      (b.term = a.term ∧ a.role = .leader ∧ b.role = .leader ∧
        ∃ es, b.log = a.log ++ es ∧ ∀ e ∈ es, termOf e = a.term) ∨
      (b.term = a.term ∧ b.role = .follower ∧
        ∃ src prev pt ents c, .app src a.term prev pt ents c ∈ net ∧ termAt termOf a.log prev = pt ∧
          Merge termOf a.log prev ents a.commit b.log) := by
  cases h with
  | append es hr hes => exact Or.inr (Or.inl ⟨rfl, hr, hr, es, rfl, hes⟩)
  | recvApp src prev pt ents c' log' hr hm hc hp hlog hb =>
      exact Or.inr (Or.inr ⟨rfl, hr, src, prev, pt, ents, c', hm, hp, hlog⟩)
  | _ => exact Or.inl rfl

/-- Neither term nor commit index of a running node ever goes back. -/
theorem LocalStep.run_le (h : Relation.ReflTransGen (LocalStep voters termOf net n) a b) :
    a.term ≤ b.term ∧ a.commit ≤ b.commit := by
  induction h with
  | refl => exact ⟨le_rfl, le_rfl⟩
  | tail _ hs ih => exact ⟨ih.1.trans hs.term_le, ih.2.trans hs.commit_le⟩

/-- A run of one node is a run of the system. -/
theorem Step.of_local [DecidableEq ι] {s : Sys ι E} {b : Node ι E}
    (h : Relation.ReflTransGen (LocalStep voters termOf s.net n) (s.node n) b) :
    ∃ s', Relation.ReflTransGen (Step voters termOf) s s' ∧ s'.node = Function.update s.node n b ∧
      s'.disk = s.disk ∧ s'.net = s.net := by
  induction h with
  | refl => exact ⟨s, .refl, (Function.update_eq_self n s.node).symm, rfl, rfl⟩
  | tail _ hs ih =>
      rename_i b₁ b₂ _
      obtain ⟨s', hrun, hnode, hdisk, hnet⟩ := ih
      have hself : s'.node n = b₁ := by rw [hnode, Function.update_self]
      refine ⟨s'.setNode n b₂, hrun.tail (.act s' n b₂ ?_), ?_, hdisk, hnet⟩
      · rw [hnet, hself]
        exact hs
      · simp only [Sys.setNode, hnode, Function.update_idem]

end Effects

end Consensus
