import CarrotOS.Net.Receive

/-!
# The FIN of the other side

Of the states in which a FIN can come, only `NET_STATE_ESTABLISHED` counts it in `seq_remote`, as
one number whatever payload comes with it. In `NET_STATE_FIN_WAIT_1` a segment with the ACK flag is
not tested for a FIN at all.
-/

namespace CarrotOS

open Word Bytes Transition Option

/-- The states of a socket that has got the FIN of the other side. -/
def NetState.isPastFin : NetState → Bool
  | .closeWait | .closing | .timeWait | .lastAck | .closed => true
  | _ => false

/-- The frame `c.2` is for the socket. -/
def IsForSocket (id : ℕ) (net : Net) (c : Env × Frame) : Prop :=
  lookupSocket c.1 net (decodeSegment c.2) = some id

/-- A frame with a FIN for the socket `s` moves it behind the FIN, where all frames that follow
leave it; if it also acknowledges our FIN, the socket waits for the timeout only. -/
def RemembersFin (env : Env) (net : Net) (id : ℕ) (s : Sock) (f : Frame) : Prop :=
  ∃ net₁, handleTcpV4 env net f = some net₁ ∧
    (∀ frames net₂, Run (fun net c => handleTcpV4 c.1 net c.2) (IsForSocket id) net₁ frames net₂ →
      ∃ s₂, net₂.sockets id = some s₂ ∧ s₂.state.isPastFin = true ∧
        u32 s₂.seqRemote = u32 ((decodeSegment f).seq + (decodeSegment f).payloadLen + 1)) ∧
    (s.state = .finWait1 → hasFlag (decodeSegment f).flags tcpAck = true →
      ∃ s₁, net₁.sockets id = some s₁ ∧ s₁.state = .timeWait)

variable {env : Env} {net net' : Net} {id : ℕ} {s : Sock} {seg : Segment}

theorem handleSegment_eq (hlookup : lookupSocket env net seg = some id)
    (hs : net.sockets id = some s) : handleSegment env net seg = onSegment env net seg id s := by
  unfold handleSegment
  rw [hlookup]
  dsimp only
  rw [hs]

/-- A socket that waits for the other side keeps `seq_remote`. -/
theorem onSegment_of_waiting (hs : net.sockets id = some s)
    (hstate : s.state = .finWait1 ∨ s.state = .finWait2 ∨ s.state = .closeWait) :
    ∃ net' s', onSegment env net seg id s = some net' ∧ net'.sockets id = some s' ∧
      s'.seqRemote = s.seqRemote ∧ s'.state = (onClosing seg s).state := by
  have hrun : onSegment env net seg id s =
      some (touch env (net.modifySock id (onClosing seg)) id) := by
    rcases hstate with h | h | h <;> simp [onSegment, h]
  refine ⟨_, _, hrun, modifySock_sockets_some (modifySock_sockets_some hs _) _, ?_, rfl⟩
  rcases hstate with h | h | h
  · simp only [onClosing, h]
    split_ifs <;> rfl
  · simp only [onClosing, h]
    split_ifs <;> rfl
  · simp only [onClosing, h]

/-- **Which FINs are remembered**: those of an established socket that come without payload. -/
theorem remembersFin_iff {f : Frame} (hfor : IsForSocket id net (env, f))
    (hs : net.sockets id = some s)
    (hstate : s.state = .established ∨ s.state = .finWait1 ∨ s.state = .finWait2)
    (hfin : hasFlag (decodeSegment f).flags tcpFin = true)
    (horder : (decodeSegment f).seq = s.seqRemote) :
    RemembersFin env net id s f ↔
      s.state = .established ∧ (decodeSegment f).payloadLen = 0 := by
  have hlt : (decodeSegment f).seq < 256 ^ 4 := readBe_lt f.buf 38 4
  have hlen := payloadLen_lt f
  rw [RemembersFin, handleTcpV4, handleSegment_eq hfor hs]
  generalize decodeSegment f = seg at *
  have heffect := (onFin_effect env hs seg).onAck seg
  rw [if_pos hfin] at heffect
  constructor
  · rintro ⟨net₁, hrun, hkeeps, -⟩
    obtain ⟨s₂, hs₂, -, hseq⟩ := hkeeps [] net₁ (.nil _)
    rcases hstate with hest | hwait
    · refine ⟨hest, by_contra fun hpayload => ?_⟩
      -- the number is advanced before the payload is compared with it
      obtain ⟨s₁, hs₁, hpart⟩ := heffect.part
      obtain ⟨-, hseq₁, -⟩ := eq_of_recvPart hpart
      have hold : s₁.seqRemote ≠ 0 ∧ seg.seq ≠ s₁.seqRemote := by
        rw [hseq₁, ← horder, u64]
        omega
      rw [onSegment, hest] at hrun
      simp only [onPayload, if_neg hpayload, hs₁, if_pos hold, some.injEq] at hrun
      subst hrun
      cases hs₁.symm.trans hs₂
      rw [hseq₁, ← horder, u32, u32, u64] at hseq
      omega
    · obtain ⟨net', s', hrun', hs', hsame, -⟩ :=
        onSegment_of_waiting hs (hwait.imp_right .inl)
      cases hrun'.symm.trans hrun
      cases hs'.symm.trans hs₂
      rw [hsame, ← horder, u32, u32] at hseq
      omega
  · rintro ⟨hest, hpayload⟩
    refine ⟨touch env (onAck (onFin env net seg id) seg id) id, ?_, ?_, fun h => ?_⟩
    · simp [onSegment, hest, onPayload, hpayload]
    · intro frames net₂ hrun
      have hinv := hrun.invariant (fun net => ∃ s, net.sockets id = some s ∧
          s.state = .closeWait ∧ s.seqRemote = u64 (seg.seq + 1)) ?_ ?_
      · obtain ⟨s₂, hs₂, hclose, hseq⟩ := hinv
        refine ⟨s₂, hs₂, by rw [hclose]; rfl, ?_⟩
        rw [hseq, hpayload, u32, u32, u64]
        omega
      · rintro net ⟨env, f⟩ net' ⟨s, hs, hclose, hseq⟩ hfor hstep
        rw [handleTcpV4, handleSegment_eq hfor hs] at hstep
        obtain ⟨_, s', hrun', hs', hsame, hstate'⟩ := onSegment_of_waiting hs (.inr (.inr hclose))
        cases hrun'.symm.trans hstep
        refine ⟨s', hs', hstate'.trans ?_, hsame.trans hseq⟩
        simp [onClosing, hclose]
      · obtain ⟨s₁, hs₁, hpart⟩ := (heffect.touch env).part
        obtain ⟨-, hseq₁, hclose⟩ := eq_of_recvPart hpart
        exact ⟨s₁, hs₁, hclose, horder ▸ hseq₁⟩
    · rw [hest] at h
      cases h

/-- A FIN with the ACK flag and without payload for the sample socket. -/
def finFrame : Frame := { sampleFrame 100 0x11 0 with bufLen := 54 }

theorem finFrame_isForSocket (state : NetState) :
    IsForSocket 0 (.ofSock { sampleSock state with seqRemote := 100 }) (resolvedEnv, finFrame) :=
  lookupSocket_of_exact (find_range_zero (by decide) rfl)

theorem remembersFin_iff_established : RemembersFin resolvedEnv
    (.ofSock { sampleSock .established with seqRemote := 100 }) 0
    { sampleSock .established with seqRemote := 100 } finFrame :=
  (remembersFin_iff (finFrame_isForSocket _) rfl (.inl rfl) rfl rfl).mpr ⟨rfl, rfl⟩

/-- **A FIN is overlooked.** In `NET_STATE_FIN_WAIT_1` the ACK moves the socket on to
`NET_STATE_FIN_WAIT_2`, where it waits for a FIN that has come already. -/
theorem fin_overlooked : ¬RemembersFin resolvedEnv
    (.ofSock { sampleSock .finWait1 with seqRemote := 100 }) 0
    { sampleSock .finWait1 with seqRemote := 100 } finFrame := by
  rintro ⟨net₁, hrun, hkeeps, -⟩
  obtain ⟨s₂, hs₂, hpast, -⟩ := hkeeps [] net₁ (.nil _)
  rw [handleTcpV4, handleSegment_eq (finFrame_isForSocket _) rfl] at hrun
  cases hrun
  cases hs₂
  cases hpast

end CarrotOS
