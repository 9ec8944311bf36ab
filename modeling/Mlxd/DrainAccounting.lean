import Mlxd.Server
import Mathlib.Data.List.Basic

/-!
# The accounting of the drain

While the drain timer is active the counter is the number of connections of generation requests
that are still open, and every connection that is open then is one of these. So the timer is
closed by the close of the last of them or by the deadline, and never by both.
-/
namespace Mlxd.Server

variable {s : HttpServer} {i : ConnId}

/-- A connection of a generation request that is still open. -/
def Conn.openGen (c : Conn) : Bool := c.genOwned && !c.handleClosing

def openGenConns (s : HttpServer) : Nat := s.conns.countP Conn.openGen

/-! ## The invariant -/

/-- The timer runs and its counter is right. -/
def Ticking (s : HttpServer) : Prop :=
  s.drainTimerActive = true ∧ s.drainTimer = ⟨true, true, 0, false⟩ ∧
    s.drainOpenConns = openGenConns s ∧ 0 < openGenConns s

/-- The timer was never initialised, or is closed. -/
def Off (s : HttpServer) : Prop :=
  s.drainTimerActive = false ∧ 0 ≤ s.drainOpenConns ∧
    (s.drainTimer = ⟨false, false, 0, false⟩ ∨ s.drainTimer = ⟨true, false, 1, false⟩)

structure Inv (s : HttpServer) : Prop where
  sane : ∀ c ∈ s.conns, c.Sane
  unstopped : s.draining = false →
    s.drainTimerActive = false ∧ s.drainTimer = ⟨false, false, 0, false⟩ ∧ s.drainOpenConns = 0
  stopped : s.draining = true → s.listenerClosing = true ∧ s.stopClosing = true ∧
    ∀ c ∈ s.conns, c.handleClosing = false → c.genOwned = true
  timer : Ticking s ∨ Off s

/-- The invariant, for a callback that works with one connection. -/
structure Good (i : ConnId) (draining : Bool) (s : HttpServer) : Prop where
  inv : Inv s
  registered : ∀ c, s.conns[i]? = some c → c.handleClosing = true → c.closing = true
  phase : s.draining = draining

theorem conn_sane (h : Inv s) {c : Conn} (hc : s.conns[i]? = some c) : c.Sane :=
  h.sane c (List.mem_of_getElem? hc)

theorem openGenConns_set {c : Conn} (c' : Conn) (hc : s.conns[i]? = some c) :
    openGenConns (s.setConn i c') + c.openGen.toNat = openGenConns s + c'.openGen.toNat := by
  obtain ⟨hi, hget⟩ := List.getElem?_eq_some_iff.mp hc
  have hpos : c.openGen = true → 0 < s.conns.countP Conn.openGen := fun h =>
    List.countP_pos_iff.mpr ⟨c, List.mem_of_getElem? hc, h⟩
  simp only [openGenConns, HttpServer.setConn, List.countP_set hi, hget]
  cases h : c.openGen with
  | false => cases c'.openGen <;> simp
  | true =>
    have := hpos h
    cases c'.openGen <;> simp only [if_true, Bool.false_eq_true, if_false, Bool.toNat_true,
      Bool.toNat_false] <;> omega

theorem mem_set {c' d : Conn} (h : d ∈ (s.setConn i c').conns) : d ∈ s.conns ∨ d = c' :=
  List.mem_or_eq_of_mem_set h

/-- A change to a connection that does not close it. -/
theorem Inv.setConn (h : Inv s) {c c' : Conn} (hc : s.conns[i]? = some c) (hsane : c'.Sane)
    (hopen : c'.handleClosing = c.handleClosing)
    (hgen : c'.genOwned = c.genOwned ∨ s.draining = false) : Inv (s.setConn i c') := by
  obtain ⟨hsanes, hunstopped, hstopped, htimer⟩ := h
  refine ⟨fun d hd => ?_, hunstopped, fun hdraining => ?_, ?_⟩
  · rcases mem_set hd with hd | rfl
    · exact hsanes d hd
    · exact hsane
  · obtain ⟨hlistener, hstop, hall⟩ := hstopped hdraining
    refine ⟨hlistener, hstop, fun d hd hlive => ?_⟩
    rcases mem_set hd with hd | rfl
    · exact hall d hd hlive
    · rcases hgen with hgen | hgen
      · rw [hgen]
        exact hall c (List.mem_of_getElem? hc) (hopen.symm.trans hlive)
      · rw [show s.draining = true from hdraining] at hgen
        contradiction
  · rcases htimer with ⟨hactive, htimer, hcount, hpos⟩ | hoff
    · rcases hgen with hgen | hgen
      · have hsame : c'.openGen = c.openGen := by simp only [Conn.openGen, hgen, hopen]
        have := openGenConns_set c' hc
        rw [hsame] at this
        have hcounts : openGenConns (s.setConn i c') = openGenConns s := by omega
        exact .inl ⟨hactive, htimer, by rw [hcounts]; exact hcount, by rw [hcounts]; exact hpos⟩
      · rw [(hunstopped hgen).1] at hactive
        contradiction
    · exact .inr hoff

theorem Good.setConn {draining : Bool} (h : Good i draining s) {c c' : Conn}
    (hc : s.conns[i]? = some c) (hsane : c'.Sane) (hopen : c'.handleClosing = c.handleClosing)
    (hclosing : c'.closing = c.closing) (hgen : c'.genOwned = c.genOwned ∨ draining = false) :
    Good i draining (s.setConn i c') := by
  obtain ⟨hinv, hregistered, rfl⟩ := h
  refine ⟨hinv.setConn hc hsane hopen hgen, fun d hd hclosed => ?_, rfl⟩
  obtain ⟨hi, -⟩ := List.getElem?_eq_some_iff.mp hc
  rw [HttpServer.setConn, List.getElem?_set_self hi] at hd
  obtain rfl := Option.some.inj hd
  rw [hclosing]
  exact hregistered c hc (hopen.symm.trans hclosed)

/-! ## Closing and writing -/

theorem drainCheck_inactive (h : s.drainTimerActive = false) : drainCheck s = s := by
  rw [drainCheck, if_pos (by simp [h])]

theorem uvTimerClose_stopped :
    uvTimerClose (uvTimerStop ⟨true, true, 0, false⟩) = ⟨true, false, 1, false⟩ := rfl

@[simp] theorem drainCheck_conns : (drainCheck s).conns = s.conns := by
  unfold drainCheck
  split
  · rfl
  · split <;> rfl

@[simp] theorem drainCheck_draining : (drainCheck s).draining = s.draining := by
  unfold drainCheck
  split
  · rfl
  · split <;> rfl

/-- The timer runs and the connection that closes is still counted. -/
def Behind (s : HttpServer) : Prop :=
  s.draining = true ∧ s.drainTimerActive = true ∧ s.drainTimer = ⟨true, true, 0, false⟩ ∧
    s.drainOpenConns = openGenConns s + 1

/-- The last connection that was counted closes the timer. -/
theorem drainCheck_inv (hsane : ∀ c ∈ s.conns, c.Sane)
    (hunstopped : s.draining = false →
      s.drainTimerActive = false ∧ s.drainTimer = ⟨false, false, 0, false⟩ ∧ s.drainOpenConns = 0)
    (hstopped : s.draining = true → s.listenerClosing = true ∧ s.stopClosing = true ∧
      ∀ c ∈ s.conns, c.handleClosing = false → c.genOwned = true)
    (htimer : Behind s ∨ Off s) : Inv (drainCheck s) := by
  rcases htimer with ⟨hdraining, hactive, htimer, hcount⟩ | hoff
  · rw [drainCheck, if_neg (by simp [hdraining, hactive])]
    split
    · rename_i hlast
      refine ⟨hsane, fun hnot => ?_, hstopped, .inr ⟨rfl, ?_, .inr ?_⟩⟩
      · rw [show s.draining = false from hnot] at hdraining
        contradiction
      · dsimp only
        omega
      · dsimp only
        rw [htimer, uvTimerClose_stopped]
    · refine ⟨hsane, fun hnot => ?_, hstopped, .inl ⟨hactive, htimer, ?_, ?_⟩⟩
      · rw [show s.draining = false from hnot] at hdraining
        contradiction
      · have hcounts : s.drainOpenConns - 1 = openGenConns s := by omega
        exact hcounts
      · have hcounts : 0 < openGenConns s := by omega
        exact hcounts
  · rw [drainCheck_inactive hoff.1]
    exact ⟨hsane, hunstopped, hstopped, .inr hoff⟩

/-- The counter goes down with the connection that closes. -/
theorem closeConn_good {draining : Bool} (h : Good i draining s) : Good i draining (closeConn i s) := by
  unfold closeConn
  split
  · rename_i c hc
    split
    · exact h
    · rename_i hclosing
      obtain ⟨⟨hsanes, hunstopped, hstopped, htimer⟩, hregistered, hphase⟩ := h
      have hlive : c.handleClosing = false := by
        by_contra hclosed
        exact hclosing (hregistered c hc (by simpa using hclosed))
      obtain ⟨hi, -⟩ := List.getElem?_eq_some_iff.mp hc
      refine ⟨drainCheck_inv (fun d hd => ?_) hunstopped (fun hdraining => ?_) ?_, fun d hd _ => ?_,
        drainCheck_draining.trans hphase⟩
      · rcases mem_set hd with hd | rfl
        · exact hsanes d hd
        · exact ⟨fun _ => rfl, fun _ => .inl rfl, fun _ => rfl⟩
      · obtain ⟨hlistener, hstop, hall⟩ := hstopped hdraining
        refine ⟨hlistener, hstop, fun d hd hopen => ?_⟩
        rcases mem_set hd with hd | rfl
        · exact hall d hd hopen
        · contradiction
      · rcases htimer with ⟨hactive, htimer, hconns, -⟩ | hoff
        · have hdraining : s.draining = true := by
            by_contra hnot
            rw [(hunstopped (by simpa using hnot)).1] at hactive
            contradiction
          have hgen : c.openGen = true := by
            simp [Conn.openGen, hlive, (hstopped hdraining).2.2 c (List.mem_of_getElem? hc) hlive]
          have hcount := openGenConns_set c.closed hc
          rw [hgen, show c.closed.openGen = false by simp [Conn.openGen, Conn.closed]] at hcount
          refine .inl ⟨hdraining, hactive, htimer, ?_⟩
          change s.drainOpenConns = _
          simp only [Bool.toNat_true, Bool.toNat_false] at hcount
          omega
        · exact .inr hoff
      · rw [drainCheck_conns, HttpServer.setConn, List.getElem?_set_self hi] at hd
        rw [← Option.some.inj hd]
        rfl
  · exact h

theorem queueWrite_good {draining closeAfter queued : Bool} (h : Good i draining s) :
    Good i draining (queueWrite i closeAfter queued s) := by
  unfold queueWrite
  split
  · rename_i c hc
    split
    · exact h
    · rename_i hclosing
      split
      · have hsane := conn_sane h.inv hc
        refine h.setConn hc ⟨hsane.1, fun hclosed => ?_, hsane.2.2⟩ rfl rfl (.inl rfl)
        exact absurd (h.registered c hc hclosed) hclosing
      · exact closeConn_good h
  · exact h

theorem respond_good {draining keepAlive built queued : Bool} (h : Good i draining s) :
    Good i draining (respond i keepAlive built queued s) := by
  unfold respond
  split
  · exact queueWrite_good h
  · exact closeConn_good h

theorem httpConnSetObserver_good {draining on : Bool} (h : Good i draining s) :
    Good i draining (httpConnSetObserver i on s) := by
  unfold httpConnSetObserver
  split
  · rename_i c hc
    have hsane : c.Sane := conn_sane h.inv hc
    exact h.setConn hc hsane rfl rfl (.inl rfl)
  · exact h

/-! ## The callbacks of a connection -/

theorem dispatch_good {keepAlive : Bool} {outcome : Dispatched} (h : Good i false s) :
    Good i false (dispatch i keepAlive outcome s) := by
  cases outcome with
  | answer built queued => exact respond_good h
  | deferred head =>
    have hobserved : Good i false (httpConnSetObserver i true s) := httpConnSetObserver_good h
    have howned : ∀ {s' : HttpServer} {c : Conn}, Good i false s' → s'.conns[i]? = some c →
        Good i false (s'.setConn i { c with genOwned := true }) := by
      intro s' c hgood hc
      have hsane := conn_sane hgood.inv hc
      refine hgood.setConn hc ⟨hsane.1, fun hclosed => ?_, hsane.2.2⟩ rfl rfl (.inr rfl)
      exact .inl (hgood.registered c hc hclosed)
    cases head with
    | some queued =>
      have hhead : Good i false (queueWrite i false queued (httpConnSetObserver i true s)) :=
        queueWrite_good hobserved
      unfold dispatch
      dsimp only
      split
      · exact howned hhead (by assumption)
      · exact hhead
    | none =>
      unfold dispatch
      dsimp only
      split
      · exact howned hobserved (by assumption)
      · exact hobserved

theorem readLoop_good {parsed : List Parsed} (h : Good i false s) :
    Good i false (readLoop i parsed s) := by
  induction parsed generalizing s with
  | nil => exact h
  | cons p rest ih =>
    unfold readLoop
    split
    · exact h
    · cases p with
      | incomplete => exact h
      | refused built queued => exact respond_good h
      | complete keepAlive outcome =>
        dsimp only
        split
        · exact dispatch_good h
        · exact ih (dispatch_good h)

/-- Whoever may read has not been counted, or does not read any more. -/
theorem onRead_inv {failed : Bool} {parsed : List Parsed} (h : Inv s) {c : Conn}
    (hc : s.conns[i]? = some c) (hlive : c.live = true) : Inv (onRead i failed parsed s) := by
  have hopen : c.handleClosing = false := by
    simp only [Conn.live, Bool.and_eq_true, Bool.not_eq_true'] at hlive
    exact hlive.2
  have hgood : Good i s.draining s := by
    refine ⟨h, fun d hd hclosed => ?_, rfl⟩
    rw [hc] at hd
    rw [← Option.some.inj hd, hopen] at hclosed
    contradiction
  unfold onRead
  split
  · exact (closeConn_good hgood).inv
  · split
    · exact h
    · rename_i hgen
      have hdraining : s.draining = false := by
        by_contra hdraining
        have := (h.stopped (by simpa using hdraining)).2.2 c (List.mem_of_getElem? hc) hopen
        exact hgen (by simp [HttpServer.genOwnedConn, hc, this])
      rw [hdraining] at hgood
      exact (readLoop_good hgood).inv

theorem onWrite_inv {failed : Bool} (h : Inv s) {c : Conn} (hc : s.conns[i]? = some c)
    (hwrites : c.writes ≠ []) : Inv (onWrite i failed s) := by
  have hsane := conn_sane h hc
  have hgood : Good i s.draining s := by
    refine ⟨h, fun d hd hclosed => ?_, rfl⟩
    rw [hc] at hd
    obtain rfl := Option.some.inj hd
    rcases hsane.2.1 hclosed with hclosing | ⟨-, hnone⟩
    · exact hclosing
    · exact absurd hnone hwrites
  unfold onWrite
  simp only [hc]
  split
  · rename_i closeAfter rest _
    have hpopped : Good i s.draining (s.setConn i { c with writes := rest }) := hgood.setConn hc
      ⟨hsane.1, fun hclosed => .inl (hgood.registered c hc hclosed), hsane.2.2⟩ rfl rfl (.inl rfl)
    split
    · exact (closeConn_good hpopped).inv
    · exact hpopped.inv
  · exact h

theorem genCalls_good {draining : Bool} {calls : List GenCall} (h : Good i draining s) :
    Good i draining (calls.foldl (genCall i) s) := by
  induction calls generalizing s with
  | nil => exact h
  | cons call rest ih =>
    refine ih ?_
    cases call with
    | write closeAfter queued => exact queueWrite_good h
    | close => exact closeConn_good h
    | detach => exact httpConnSetObserver_good h

/-! ## The two walks -/

/-- While the timer is not active a connection closes and nothing else changes. -/
theorem closeConn_inactive (h : s.drainTimerActive = false) {c : Conn} (hc : s.conns[i]? = some c)
    (hclosing : c.closing = false) : closeConn i s = s.setConn i c.closed := by
  simp only [closeConn, hc, hclosing, Bool.false_eq_true, if_false]
  exact drainCheck_inactive h

/-- Some live connections have been closed, those in the list unless the walk keeps them. -/
structure Walked (kept : Conn → Bool) (is : List ConnId) (s s' : HttpServer) : Prop where
  rest : s' = { s with conns := s'.conns }
  closed : ∀ i : ConnId, s'.conns[i]? = s.conns[i]? ∨
    ∃ c, s.conns[i]? = some c ∧ c.live = true ∧ kept c = false ∧ s'.conns[i]? = some c.closed
  done : ∀ i ∈ is, ∀ c, s'.conns[i]? = some c → c.live = true → kept c = true

theorem Walked.nil (kept : Conn → Bool) (s : HttpServer) : Walked kept [] s s where
  rest := rfl
  closed _ := .inl rfl
  done _ h := by contradiction

/-- One connection more. -/
theorem Walked.cons {kept : Conn → Bool} {is : List ConnId} {s₁ s₂ : HttpServer}
    (hfirst : Walked kept [i] s s₁) (hrest : Walked kept is s₁ s₂) : Walked kept (i :: is) s s₂ where
  rest := by rw [hrest.rest, hfirst.rest]
  closed j := by
    rcases hrest.closed j with h₂ | ⟨c, hc, hlive, hkept, h₂⟩
    · rw [h₂]
      exact hfirst.closed j
    · rcases hfirst.closed j with h₁ | ⟨d, -, -, -, h₁⟩
      · exact .inr ⟨c, h₁ ▸ hc, hlive, hkept, h₂⟩
      · rw [h₁] at hc
        rw [← Option.some.inj hc] at hlive
        simp [Conn.live, Conn.closed] at hlive
  done j hj c hc hlive := by
    rcases List.mem_cons.mp hj with rfl | hj
    · rcases hrest.closed j with h₂ | ⟨d, hd, -, -, h₂⟩
      · exact hfirst.done j (by simp) c (h₂ ▸ hc) hlive
      · rw [h₂] at hc
        rw [← Option.some.inj hc] at hlive
        simp [Conn.live, Conn.closed] at hlive
    · exact hrest.done j hj c hc hlive

/-- A connection that the walk leaves as it is. -/
theorem walked_same {kept : Conn → Bool}
    (h : ∀ c, s.conns[i]? = some c → c.live = true → kept c = true) : Walked kept [i] s s where
  rest := rfl
  closed _ := .inl rfl
  done j hj := by
    rw [List.mem_singleton.mp hj]
    exact h

theorem walked_close {kept : Conn → Bool} (hinv : ∀ c ∈ s.conns, c.Sane)
    (h : s.drainTimerActive = false) {c : Conn} (hc : s.conns[i]? = some c)
    (hlive : c.live = true) (hkept : kept c = false) : Walked kept [i] s (closeConn i s) := by
  have hopen : c.handleClosing = false := by
    simp only [Conn.live, Bool.and_eq_true, Bool.not_eq_true'] at hlive
    exact hlive.2
  have hclosing : c.closing = false := by
    by_contra hclosed
    have := (hinv c (List.mem_of_getElem? hc)).1 (by simpa using hclosed)
    rw [hopen] at this
    contradiction
  obtain ⟨hi, -⟩ := List.getElem?_eq_some_iff.mp hc
  rw [closeConn_inactive h hc hclosing]
  refine ⟨rfl, fun j => ?_, fun j hj d hd hdlive => ?_⟩
  · by_cases hij : j = i
    · subst hij
      exact .inr ⟨c, hc, hlive, hkept, List.getElem?_set_self hi⟩
    · exact .inl (List.getElem?_set_ne (Ne.symm hij))
  · rw [List.mem_singleton.mp hj, HttpServer.setConn, List.getElem?_set_self hi] at hd
    rw [← Option.some.inj hd] at hdlive
    simp [Conn.live, Conn.closed] at hdlive

theorem Walked.sane {kept : Conn → Bool} {is : List ConnId} {s' : HttpServer}
    (h : Walked kept is s s') (hsane : ∀ c ∈ s.conns, c.Sane) : ∀ c ∈ s'.conns, c.Sane := by
  intro c hc
  obtain ⟨j, hj⟩ := List.mem_iff_getElem?.mp hc
  rcases h.closed j with h' | ⟨d, -, -, -, h'⟩
  · exact hsane c (List.mem_of_getElem? (h' ▸ hj))
  · rw [h'] at hj
    rw [← Option.some.inj hj]
    exact ⟨fun _ => rfl, fun _ => .inl rfl, fun _ => rfl⟩

theorem walkForceClose_walked (is : List ConnId) (hsane : ∀ c ∈ s.conns, c.Sane)
    (h : s.drainTimerActive = false) :
    Walked (fun _ => false) is s (is.foldl walkForceCloseTcpCb s) := by
  induction is generalizing s with
  | nil => exact .nil _ s
  | cons i rest ih =>
    have hfirst : Walked (fun _ => false) [i] s (walkForceCloseTcpCb s i) := by
      unfold walkForceCloseTcpCb
      split
      · rename_i c hc
        split
        · rename_i hlive
          refine walked_same fun d hd hdlive => ?_
          rw [hc] at hd
          rw [← Option.some.inj hd] at hdlive
          rw [hdlive] at hlive
          contradiction
        · rename_i hlive
          exact walked_close hsane h hc (by simpa using hlive) rfl
      · rename_i hnone
        refine walked_same fun d hd _ => ?_
        rw [hnone] at hd
        contradiction
    have hstill : (walkForceCloseTcpCb s i).drainTimerActive = false := by
      rw [hfirst.rest]
      exact h
    exact .cons hfirst (ih (hfirst.sane hsane) hstill)

/-- The first walk closes no connection that it counts. -/
theorem Walked.openGen {is : List ConnId} {s' : HttpServer} (h : Walked Conn.genOwned is s s')
    (j : ConnId) : (s'.conns[j]?).any Conn.openGen = (s.conns[j]?).any Conn.openGen := by
  rcases h.closed j with h' | ⟨c, hc, -, hkept, h'⟩
  · rw [h']
  · rw [h', hc]
    simp [Conn.openGen, Conn.closed, hkept]

theorem Walked.length {kept : Conn → Bool} {is : List ConnId} {s' : HttpServer}
    (h : Walked kept is s s') : s'.conns.length = s.conns.length := by
  have hnone : ∀ j : ConnId, s'.conns[j]? = none ↔ s.conns[j]? = none := by
    intro j
    rcases h.closed j with h' | ⟨c, hc, -, -, h'⟩
    · rw [h']
    · rw [h', hc]
      simp
  simp only [List.getElem?_eq_none_iff] at hnone
  exact Nat.le_antisymm ((hnone _).mpr (Nat.le_refl _)) ((hnone _).mp (Nat.le_refl _))

theorem openGenConns_range (s : HttpServer) :
    openGenConns s = (handleIds s).countP fun j => (s.conns[j]?).any Conn.openGen := by
  have hget : (handleIds s).map (fun j => s.conns[j]?) = s.conns.map some := by
    refine List.ext_getElem? fun j => ?_
    by_cases hj : j < s.conns.length <;> simp [handleIds, hj]
  calc openGenConns s = (s.conns.map some).countP fun c => c.any Conn.openGen := by
        rw [List.countP_map]
        rfl
    _ = (handleIds s).countP fun j => (s.conns[j]?).any Conn.openGen := by
        rw [← hget, List.countP_map]
        rfl

theorem walkDrain_walked (is : List ConnId) (n : Int) (hsane : ∀ c ∈ s.conns, c.Sane)
    (h : s.drainTimerActive = false) :
    Walked Conn.genOwned is s (is.foldl walkDrainCb (s, n)).1 ∧
      (is.foldl walkDrainCb (s, n)).2 =
        n + is.countP fun j => (s.conns[j]?).any Conn.openGen := by
  induction is generalizing s n with
  | nil => exact ⟨.nil _ s, by simp⟩
  | cons i rest ih =>
    have hfirst : Walked Conn.genOwned [i] s (walkDrainCb (s, n) i).1 ∧
        (walkDrainCb (s, n) i).2 = n + ((s.conns[i]?).any Conn.openGen).toNat := by
      unfold walkDrainCb
      split
      · rename_i c hc
        replace hc : s.conns[i]? = some c := hc
        have hlive : c.live = !c.handleClosing := by
          have := (hsane c (List.mem_of_getElem? hc)).2.2
          cases hfreed : c.freed <;> simp [Conn.live, hfreed, this]
        split
        · rename_i hdead
          refine ⟨walked_same fun d hd hdlive => ?_, ?_⟩
          · rw [hc] at hd
            rw [← Option.some.inj hd] at hdlive
            rw [hdlive] at hdead
            contradiction
          · have hclosed : c.handleClosing = true := by simpa [hlive] using hdead
            simp [hc, Conn.openGen, hclosed]
        · rename_i hdead
          have hopen : c.live = true := by simpa using hdead
          rw [hlive] at hopen
          split
          · rename_i hgen
            refine ⟨walked_same fun d hd _ => ?_, ?_⟩
            · rw [hc] at hd
              rw [← Option.some.inj hd]
              exact hgen
            · simp [hc, Conn.openGen, hgen, hopen]
          · rename_i hgen
            have hgen : c.genOwned = false := by simpa using hgen
            refine ⟨walked_close hsane h hc (by simpa using hdead) hgen, ?_⟩
            simp [hc, Conn.openGen, hgen]
      · rename_i hnone
        replace hnone : s.conns[i]? = none := hnone
        refine ⟨walked_same fun d hd _ => ?_, by simp [hnone]⟩
        rw [hnone] at hd
        contradiction
    obtain ⟨hwalked, hcount⟩ := hfirst
    have hstill : (walkDrainCb (s, n) i).1.drainTimerActive = false := by
      rw [hwalked.rest]
      exact h
    obtain ⟨hrest, hcounts⟩ := @ih (walkDrainCb (s, n) i).1 (walkDrainCb (s, n) i).2
      (hwalked.sane hsane) hstill
    refine ⟨.cons hwalked hrest, ?_⟩
    rw [List.foldl_cons, hcounts, hcount, List.countP_cons]
    simp only [hwalked.openGen]
    cases (s.conns[i]?).any Conn.openGen with
    | false => simp
    | true =>
      simp only [Bool.toNat_true, if_true]
      omega

/-- After the walk every connection that is not closing is one that the walk keeps. -/
theorem Walked.kept {kept : Conn → Bool} {s' : HttpServer} (h : Walked kept (handleIds s) s s')
    (hsane : ∀ c ∈ s.conns, c.Sane) (c : Conn) (hc : c ∈ s'.conns)
    (hopen : c.handleClosing = false) : kept c = true := by
  obtain ⟨j, hj⟩ := List.mem_iff_getElem?.mp hc
  have hfreed : c.freed = false := by
    by_contra hfreed
    rw [(h.sane hsane c hc).2.2 (by simpa using hfreed)] at hopen
    contradiction
  obtain ⟨hlt, -⟩ := List.getElem?_eq_some_iff.mp hj
  rw [h.length] at hlt
  exact h.done j (List.mem_range.mpr hlt) c hj (by simp [Conn.live, hfreed, hopen])

theorem Walked.frame {kept : Conn → Bool} {is : List ConnId} {s' : HttpServer}
    (h : Walked kept is s s') : s'.draining = s.draining ∧
      s'.listenerClosing = s.listenerClosing ∧ s'.stopClosing = s.stopClosing ∧
      s'.drainTimer = s.drainTimer ∧ s'.drainTimerActive = s.drainTimerActive ∧
      s'.drainOpenConns = s.drainOpenConns := by
  rw [h.rest]
  exact ⟨rfl, rfl, rfl, rfl, rfl, rfl⟩

/-- The counter starts with the connections that the walk has kept. -/
theorem onStopAsync_inv {inited : Bool} (h : Inv s) : Inv (onStopAsync inited s) := by
  unfold onStopAsync
  split
  · exact h
  · rename_i hdraining
    obtain ⟨hactive, htimer, hconns⟩ := h.unstopped (by simpa using hdraining)
    dsimp only
    generalize hs₀ : ({ s with
      draining := true, listenerClosing := true, stopClosing := true } : HttpServer) = s₀
    have hsane : ∀ c ∈ s₀.conns, c.Sane := by
      rw [← hs₀]
      exact h.sane
    have hinactive : s₀.drainTimerActive = false := by
      rw [← hs₀]
      exact hactive
    obtain ⟨hwalked, hcount⟩ := @walkDrain_walked s₀ (handleIds s₀) 0 hsane hinactive
    generalize (handleIds s₀).foldl walkDrainCb (s₀, 0) = acc at hwalked hcount
    obtain ⟨s₁, n⟩ := acc
    dsimp only at hwalked hcount ⊢
    have hcounted : n = openGenConns s₁ := by
      have hids : handleIds s₁ = handleIds s₀ := by rw [handleIds, hwalked.length, handleIds]
      rw [hcount, openGenConns_range, hids, Int.zero_add]
      simp only [hwalked.openGen]
    obtain ⟨hdraining₁, hlistener, hstop, htimer₁, hactive₁, hconns₁⟩ := hwalked.frame
    rw [← hs₀] at hdraining₁ hlistener hstop htimer₁ hconns₁
    have hnot : s₁.draining ≠ false := by simp [hdraining₁]
    have hkept := hwalked.kept hsane
    have hsane₁ := hwalked.sane hsane
    split
    · rename_i hstart
      have hpos : 0 < openGenConns s₁ := by
        have : 0 < n := by
          simp only [Bool.and_eq_true, decide_eq_true_eq] at hstart
          exact hstart.1
        omega
      refine ⟨hsane₁, fun h => absurd h hnot, fun _ => ⟨hlistener, hstop, hkept⟩,
        .inl ⟨rfl, ?_, hcounted, hpos⟩⟩
      dsimp only
      rw [htimer₁, htimer]
      rfl
    · exact ⟨hsane₁, fun h => absurd h hnot, fun _ => ⟨hlistener, hstop, hkept⟩,
        .inr ⟨hactive₁.trans hinactive, Int.le_of_eq (hconns₁.trans hconns).symm, .inl (htimer₁.trans htimer)⟩⟩

/-- At the deadline nothing is counted any more. -/
theorem deadline_inv (h : Inv s) (hrunning : s.drainTimer.running = true) :
    Inv (handle .deadline s) := by
  obtain ⟨hsane, hunstopped, hstopped, htimer⟩ := h
  have hticking : Ticking s := by
    rcases htimer with h | ⟨-, -, h | h⟩
    · exact h
    · rw [h] at hrunning
      contradiction
    · rw [h] at hrunning
      contradiction
  obtain ⟨hactive, htimer, hcount, -⟩ := hticking
  have hdraining : s.draining = true := by
    by_contra hnot
    rw [(hunstopped (by simpa using hnot)).1] at hactive
    contradiction
  obtain ⟨hlistener, hstop, -⟩ := hstopped hdraining
  simp only [handle, onDrainTimeout]
  generalize hs₀ : ({ s with
    drainTimer := { s.drainTimer with running := false }, drainTimerActive := false } :
      HttpServer) = s₀
  have hsane₀ : ∀ c ∈ s₀.conns, c.Sane := by
    rw [← hs₀]
    exact hsane
  have hinactive : s₀.drainTimerActive = false := by rw [← hs₀]
  have hwalked := walkForceClose_walked (handleIds s₀) hsane₀ hinactive
  generalize (handleIds s₀).foldl walkForceCloseTcpCb s₀ = s₁ at hwalked
  obtain ⟨hdraining₁, hlistener₁, hstop₁, htimer₁, hactive₁, hconns₁⟩ := hwalked.frame
  rw [← hs₀] at hdraining₁ hlistener₁ hstop₁ htimer₁ hconns₁
  have hnone : ∀ c ∈ s₁.conns, c.handleClosing = false → c.genOwned = true := by
    intro c hc hopen
    exact absurd (hwalked.kept hsane₀ c hc hopen) Bool.false_ne_true
  refine ⟨hwalked.sane hsane₀, fun hnot => ?_, fun _ => ⟨?_, ?_, hnone⟩, .inr ⟨?_, ?_, .inr ?_⟩⟩
  · rw [show s₁.draining = false from hnot] at hdraining₁
    rw [← show false = s.draining from hdraining₁] at hdraining
    contradiction
  · exact hlistener₁.trans hlistener
  · exact hstop₁.trans hstop
  · exact hactive₁.trans hinactive
  · rw [show s₁.drainOpenConns = s.drainOpenConns from hconns₁, hcount]
    exact Int.natCast_nonneg _
  · dsimp only
    rw [htimer₁, htimer]
    rfl

/-! ## Over whole runs -/

theorem handle_inv {e : Event} (h : Inv s) (hpossible : Possible s e) : Inv (handle e s) := by
  cases e with
  | connection accepted =>
    obtain ⟨hsane, hunstopped, hstopped, htimer⟩ := h
    have hdraining : s.draining = false := by
      by_contra hnot
      have hclosing := (hstopped (by simpa using hnot)).1
      rw [show s.listenerClosing = false from hpossible] at hclosing
      contradiction
    have hoff : Off s := by
      rcases htimer with ⟨hactive, -⟩ | hoff
      · rw [(hunstopped hdraining).1] at hactive
        contradiction
      · exact hoff
    refine ⟨fun c hc => ?_, hunstopped, fun hnot => ?_, .inr hoff⟩
    · rcases List.mem_append.mp hc with hc | hc
      · exact hsane c hc
      · rw [List.mem_singleton.mp hc]
        exact ⟨fun h => by contradiction, fun _ => .inr ⟨rfl, rfl⟩, fun h => by contradiction⟩
    · rw [show s.draining = true from hnot] at hdraining
      contradiction
  | read i failed parsed =>
    obtain ⟨c, hc, hlive⟩ := hpossible
    exact onRead_inv h hc hlive
  | written i failed =>
    obtain ⟨c, hc, -, hwrites⟩ := hpossible
    exact onWrite_inv h hc hwrites
  | gen i calls =>
    obtain ⟨c, hc, -, hgen⟩ := hpossible
    have hgood : Good i s.draining s := by
      refine ⟨h, fun d hd hclosed => ?_, rfl⟩
      rw [hc] at hd
      obtain rfl := Option.some.inj hd
      rcases (conn_sane h hc).2.1 hclosed with hclosing | ⟨hnot, -⟩
      · exact hclosing
      · rw [hgen] at hnot
        contradiction
    exact (genCalls_good hgood).inv
  | connClosed i =>
    obtain ⟨c, hc, -, hclosed⟩ := hpossible
    have hsane := conn_sane h hc
    simp only [handle, onConnClose, hc]
    exact h.setConn hc ⟨hsane.1, hsane.2.1, fun _ => hclosed⟩ rfl (.inl rfl)
  | stop inited => exact onStopAsync_inv h
  | deadline => exact deadline_inv h hpossible

theorem runs_inv {events : List Event} {s' : HttpServer} (hrun : Runs s events s') (h : Inv s) :
    Inv s' := by
  induction hrun with
  | nil s => exact h
  | cons hpossible _ ih => exact ih (handle_inv h hpossible)

theorem serving_inv {conns : List Conn} (hsane : ∀ c ∈ conns, c.Sane) : Inv (serving conns) where
  sane := hsane
  unstopped _ := ⟨rfl, rfl, rfl⟩
  stopped h := by contradiction
  timer := .inr ⟨rfl, Int.le_refl 0, .inl rfl⟩

/-- The counter and the drain timer, as the shutdown needs them. -/
structure Accounted (s : HttpServer) : Prop where
  counted : s.drainTimerActive = true → s.drainOpenConns = openGenConns s
  nonneg : 0 ≤ s.drainOpenConns
  once : s.drainTimer.closes ≤ 1
  inTime : s.drainTimer.inited = true → openGenConns s = 0 → s.drainTimer.closes = 1
  untouched : s.drainTimer.misused = false

theorem Inv.accounted (h : Inv s) : Accounted s := by
  rcases h.timer with ⟨-, htimer, hcount, hpos⟩ | ⟨hactive, hnonneg, htimer⟩
  · have honce : s.drainTimer.closes ≤ 1 := by simp [htimer]
    have huntouched : s.drainTimer.misused = false := by simp [htimer]
    exact ⟨fun _ => hcount, by omega, honce, fun _ hnone => by omega, huntouched⟩
  · have hclosed : s.drainTimer.closes ≤ 1 ∧ (s.drainTimer.inited = true →
        s.drainTimer.closes = 1) ∧ s.drainTimer.misused = false := by
      rcases htimer with htimer | htimer <;> simp [htimer]
    refine ⟨fun h => ?_, hnonneg, hclosed.1, fun hinited _ => hclosed.2.1 hinited, hclosed.2.2⟩
    rw [hactive] at h
    contradiction

/-- Whatever connections the server has and whatever happens to them before and after the stop. -/
theorem drain_accounted {conns : List Conn} {events : List Event} {s' : HttpServer}
    (hsane : ∀ c ∈ conns, c.Sane) (hrun : Runs (serving conns) events s') : Accounted s' :=
  (runs_inv hrun (serving_inv hsane)).accounted

/-- An idle connection, one with a write queued, two of generation requests and one that closes. -/
def mixedConns : List Conn :=
  [⟨false, false, false, false, false, []⟩, ⟨false, false, false, false, false, [false]⟩,
    ⟨false, false, false, true, true, []⟩, ⟨false, false, false, true, true, [false]⟩,
    ⟨true, true, false, false, false, [true]⟩]

/-- One response is finished and written, the other connection is closed at the deadline. -/
def drainEvents : List Event :=
  [.stop true, .gen 2 [.detach, .write true true], .written 2 false, .connClosed 0, .deadline]

theorem drain_accounted_mixed :
    Accounted (drainEvents.foldl (fun s e => handle e s) (serving mixedConns)) := by
  have hsane : ∀ c ∈ mixedConns, c.Sane := by decide
  have hrun : Runs (serving mixedConns) drainEvents
      (drainEvents.foldl (fun s e => handle e s) (serving mixedConns)) :=
    .cons rfl (.cons ⟨_, rfl, rfl, rfl⟩ (.cons ⟨_, rfl, rfl, by simp⟩
      (.cons ⟨_, rfl, rfl, rfl⟩ (.cons rfl (.nil _)))))
  exact drain_accounted hsane hrun

end Mlxd.Server
