import FmiTcpMaster.Derivatives
import FmiTcpMaster.Stacks

/-! The order in which one client sends the derivative requests that were accumulated in it. The
three vectors are pushed to and shifted at their end, so together they are a stack of triples. -/
namespace FmiTcpMaster
open Stacks (Balanced pushed pops)

namespace FMIClient

def call (c : FMIClient) : Stacks.Call DerivativeRequest → Except Fault FMIClient
  | .push d => .ok (c.pushDirectionalDerivativeRequest d)
  | .pop => c.shiftExecuteDirectionalDerivativeRequest

def calls (c : FMIClient) (cs : List (Stacks.Call DerivativeRequest)) : Except Fault FMIClient := cs.foldlM call c

def shifted (c : FMIClient) (r : List DerivativeRequest × List DerivativeRequest) : FMIClient :=
  {c.withQueue r.1 with pending := c.pending ++ r.2.map .getDirectionalDerivative}

theorem pushQueue {c : FMIClient} {q : List DerivativeRequest} (queue : c.Queue q) (d : DerivativeRequest) :
    (c.pushDirectionalDerivativeRequest d).Queue (q ++ [d]) := by
  refine ⟨?_,?_,?_⟩
  · simp [pushDirectionalDerivativeRequest,queue.vRefs]
  · simp [pushDirectionalDerivativeRequest,queue.zRefs]
  · simp [pushDirectionalDerivativeRequest,queue.dvs]

theorem shiftEmpty {c : FMIClient} (queue : c.Queue []) :
    c.shiftExecuteDirectionalDerivativeRequest = .error .emptyQueue := by
  simp [shiftExecuteDirectionalDerivativeRequest,queue.vRefs]

theorem callsExact {c : FMIClient} {q : List DerivativeRequest} (queue : c.Queue q)
    (cs : List (Stacks.Call DerivativeRequest)) :
    c.calls cs = match Stacks.run q cs with
      | none => .error .emptyQueue
      | some r => .ok (c.shifted r) := by
  induction cs generalizing c q with
  | nil =>
    have same : c.shifted (q,[]) = c := by
      rw [shifted,queueWith queue,List.map_nil,List.append_nil]
    exact congrArg Except.ok same.symm
  | cons call cs ih =>
    rw [calls,List.foldlM_cons]
    cases call with
    | push d => exact ih (pushQueue queue d)
    | pop =>
      rcases List.eq_nil_or_concat' q with rfl | ⟨rest,d,rfl⟩
      · rw [FMIClient.call,shiftEmpty queue]
        rfl
      · have next := ih (c := (c.withQueue rest).send (.getDirectionalDerivative d)) (q := rest) ⟨rfl,rfl,rfl⟩
        rw [FMIClient.call,shiftQueue queue,Stacks.runPop]
        refine Eq.trans next ?_
        cases Stacks.run rest cs with
        | none => rfl
        | some r => simp [shifted,send,withQueue]

theorem callsRun {c c' : FMIClient} {cs : List (Stacks.Call DerivativeRequest)} (empty : c.Queue [])
    (ok : c.calls cs = .ok c') : ∃ r, Stacks.run [] cs = some r ∧ c' = c.shifted r := by
  rw [callsExact empty] at ok
  cases ran : Stacks.run [] cs with
  | none =>
    rw [ran] at ok
    contradiction
  | some r =>
    rw [ran] at ok
    exact ⟨r,rfl,(Except.ok.inj ok).symm⟩

def SentInOrder (c c' : FMIClient) (cs : List (Stacks.Call DerivativeRequest)) : Prop :=
  ∃ sent : List DerivativeRequest, c'.requests = c.requests ++ sent.map .getDirectionalDerivative ∧ sent <+: pushed cs

theorem shiftedSends (c : FMIClient) (r : List DerivativeRequest × List DerivativeRequest)
    (cs : List (Stacks.Call DerivativeRequest)) : SentInOrder c (c.shifted r) cs ↔ r.2 <+: pushed cs := by
  have sends : (c.shifted r).requests = c.requests ++ r.2.map .getDirectionalDerivative := by
    simp [requests,shifted,withQueue]
  constructor
  · rintro ⟨sent,requests,order⟩
    have same : r.2.map Request.getDirectionalDerivative = sent.map Request.getDirectionalDerivative :=
      List.append_cancel_left (sends.symm.trans requests)
    have one : r.2 = sent := List.map_injective_iff.mpr (fun _ _ h => Request.getDirectionalDerivative.inj h) same
    exact one ▸ order
  · exact fun order => ⟨r.2,sends,order⟩

def numbered (n : Nat) : DerivativeRequest := ⟨[n],[],[]⟩

theorem numberedDistinct : Function.Injective numbered := by
  intro i j same
  have refs := congrArg DerivativeRequest.vRef same
  exact Int.ofNat.inj (List.cons.inj refs).1

/- For given contents the order is kept exactly if every shift closes a push of what its turn is,
and for all contents exactly if every shift finds one request. -/
theorem sentOrderExact {c c' : FMIClient} {cs : List (Stacks.Call DerivativeRequest)} (empty : c.Queue [])
    (ok : c.calls cs = .ok c') :
    (SentInOrder c c' cs ↔ ∀ l d mid r, cs = l ++ .push d :: mid ++ .pop :: r → Balanced mid →
      (pushed cs)[pops (l ++ mid)]? = some d) ∧
    ((∀ cs' c'', cs'.map Stacks.Call.isPush = cs.map Stacks.Call.isPush → c.calls cs' = .ok c'' → SentInOrder c c'' cs') ↔
      ∀ l r, cs = l ++ .pop :: r → (pushed l).length = pops l+1) := by
  obtain ⟨⟨left,sent⟩,ran,rfl⟩ := callsRun empty ok
  refine ⟨?_,?_⟩
  · rw [shiftedSends]
    exact Stacks.orderExact ran
  · refine Iff.trans ?_ (Stacks.orderAlways numberedDistinct ran)
    constructor
    · intro order cs' r' same ran'
      have ok' : c.calls cs' = .ok (c.shifted r') := by rw [callsExact empty,ran']
      exact (shiftedSends c r' cs').mp (order cs' _ same ok')
    · intro order cs' c'' same ok'
      obtain ⟨r',ran',rfl⟩ := callsRun empty ok'
      exact (shiftedSends c r' cs').mpr (order cs' r' same ran')

theorem sentOrderExactTwo :
    let cs : List (Stacks.Call DerivativeRequest) := [.push (numbered 1),.pop,.push (numbered 2),.pop]
    ∃ c', (construct 1).calls cs = .ok c' ∧ (SentInOrder (construct 1) c' cs ↔
      ∀ l d mid r, cs = l ++ .push d :: mid ++ .pop :: r → Balanced mid → (pushed cs)[pops (l ++ mid)]? = some d) :=
  ⟨_,rfl,(sentOrderExact ⟨rfl,rfl,rfl⟩ rfl).1⟩

theorem sentOrderWrong :
    ¬ ∀ cs c', (construct 1).calls cs = .ok c' → SentInOrder (construct 1) c' cs := by
  intro order
  have both := order [.push (numbered 1),.push (numbered 2),.pop] _ rfl
  have first := (shiftedSends (construct 1) ([numbered 1],[numbered 2]) _).mp both
  exact absurd first (by decide)

end FMIClient
end FmiTcpMaster
