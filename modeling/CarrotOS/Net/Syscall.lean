import CarrotOS.Net.TcpReceive

/-!
# The socket calls (`core/syscall/syscall3.h`) and the retry thread (`af_inet.h`)

The Internet branches of `sys_listen`, `sys_accept` and `sys_shutdown`, and what one round of
`kernel_thread_network` does for one socket.
-/

namespace CarrotOS

open Function Word

def maxListenBacklog : ℤ := 128

/-! ## `sys_listen` -/

/-- `sys_listen` by the process `pid`, for a descriptor that is not a Unix-domain socket. -/
def sysListen (env : Env) (net : Net) (pid sockfd : ℕ) (backlog : ℤ) : Option (Net × ℕ) :=
  if maxFd ≤ sockfd then some (net, errno eBadf)
  else if (net.fds pid sockfd).type ≠ .socket then some (net, errno eNotSock)
  else
    let resId := (net.fds pid sockfd).resId
    match net.sockets resId with
    | none => none
    | some sock =>
      if sock.protocol ≠ .tcp then some (net, errno eOpNotSupp)
      else if sock.state ≠ .closed then some (net, errno eInval)
      else
        let sock := { sock with
          backlog := (max 0 (min backlog maxListenBacklog)).toNat
          state := .listen }
        -- the entry of the listen table is a copy of the socket's tuple
        let (net, listenId) := createListen net sock.toNetTuple
        let sock := { sock with listenId, lastUpdatedTimeUs := env.now }
        some ({ net with sockets := update net.sockets resId (some sock) }, 0)

/-! ## `sys_accept` -/

/-- The assignment `tmp1[idx].state = NET_STATE_ESTABLISHED` of `sys_accept`, with the table of
socket pointers read as an array of tuples: it overwrites half of a pointer, or memory behind the
table. -/
def strayStore (env : Env) (net : Net) (idx : ℕ) : Net :=
  -- the byte `104 * idx + 44` of the table lies in its pointer `13 * idx + 5`
  let slot := (sizeofNetTuple * idx + offsetofState) / 8
  if slot < maxSocketsCount then
    { net with sockets := update net.sockets slot (some env.wild) }
  else net

/-- `get_a_free_slot_with_size(fd_addr, 0, MAX_FD_INNER, sizeof(struct file_inner))`: the bound is
compared with a number of bytes, so only the first descriptors are tried. -/
def freeDescriptor (net : Net) (pid : ℕ) : Option ℕ :=
  freeRecord maxFdInner 80 default (net.fds pid)

/-- The end of `sys_accept`, for the connection `idx`. -/
def acceptConnection (env : Env) (net : Net) (pid sockfd idx : ℕ) : Option (Net × ℕ) :=
  let net := strayStore env net idx
  match freeDescriptor net pid with
  -- the kernel stops
  | none => none
  | some fd =>
    let newfd := { net.fds pid fd with
      type := .socket
      openFlags := (net.fds pid sockfd).openFlags
      resId := idx }
    some ({ net with
      fds := update net.fds pid (update (net.fds pid) fd newfd) }, fd)

/-- What a call of `sys_accept` has done: the tables, the connection taken from the queue and the
result unless the thread sleeps. -/
structure AcceptStep where
  net : Net
  taken : Option ℕ
  result : Option ℕ

/-- `sys_accept` by the thread `tid` of the process `pid`, for a descriptor that is not a
Unix-domain socket, up to its sleep. -/
def sysAcceptEnter (env : Env) (net : Net) (tid pid sockfd : ℕ) : Option AcceptStep :=
  if (net.fds pid sockfd).type ≠ .socket then some ⟨net, none, some (errno eNotSock)⟩
  else
    let resId := (net.fds pid sockfd).resId
    match net.sockets resId with
    | none => none
    | some listener =>
      if listener.protocol ≠ .tcp ∨ listener.state ≠ .listen then
        some ⟨net, none, some (errno eInval)⟩
      else
        match pullBacklog net resId with
        | none => none
        | some (net, idx) =>
          if idx = noId then
            some ⟨sleepByResource net tid (.listen resId) (.accept sockfd resId), none, none⟩
          else
            (acceptConnection env net pid sockfd idx).map fun r => ⟨r.1, some idx, some r.2⟩

/-- `sys_accept` from the point after its sleep; `resId` is the local `listen_id`. -/
def sysAcceptResume (env : Env) (net : Net) (pid sockfd resId : ℕ) : Option AcceptStep :=
  match pullBacklog net resId with
  | none => none
  | some (net, idx) =>
    if idx = noId then some ⟨net, none, some (errno eAgain)⟩
    else (acceptConnection env net pid sockfd idx).map fun r => ⟨r.1, some idx, some r.2⟩

/-! ## `sys_shutdown` -/

/-- The state that `sys_shutdown` gives a TCP socket. -/
def shutdownState : NetState → NetState
  | .established => .finWait1
  | .closeWait => .lastAck
  | _ => .closing

def setShutdownState (net : Net) (id : ℕ) : Net :=
  net.modifySock id fun s => { s with state := shutdownState s.state }

/-- `sys_shutdown` by the process `pid`, with `SHUT_RD`, `SHUT_WR` and `SHUT_RDWR` as 0, 1
and 2. -/
def sysShutdown (env : Env) (net : Net) (pid sockfd : ℕ) (how : ℤ) : Option (Net × ℕ) :=
  if maxFdInner ≤ sockfd then some (net, errno eBadf)
  else if (net.fds pid sockfd).type ≠ .socket then some (net, errno eNotSock)
  else
    let resId := (net.fds pid sockfd).resId
    match net.sockets resId with
    | none => none
    | some sock =>
      match sock.protocol with
      | .tcp =>
        if how = 0 then some (net, 0)
        -- the state is set before the FIN
        else if how = 1 then some ((tcpSendFin env (setShutdownState net resId) resId).1, 0)
        -- the FIN comes first
        else if how = 2 then some (setShutdownState (tcpSendFin env net resId).1 resId, 0)
        else some (net, errno eInval)
      | .udp =>
        if how = 0 ∨ how = 1 ∨ how = 2 then
          some (net.modifySock resId fun s => { s with state := .closed }, 0)
        else some (net, errno eInval)
      | _ => some (net, errno eInval)

/-- What `sys_shutdown` does: nothing, or one of three things to the socket of the descriptor. -/
theorem sysShutdown_cases {env : Env} {net net' : Net} {pid sockfd r : ℕ} {how : ℤ}
    (h : sysShutdown env net pid sockfd how = some (net', r)) :
    net' = net ∨ ∃ id s, id = (net.fds pid sockfd).resId ∧ net.sockets id = some s ∧
      (s.protocol = .udp ∧ net' = net.modifySock id (fun s => { s with state := .closed }) ∨
      sockfd < maxFdInner ∧ (net.fds pid sockfd).type = .socket ∧ s.protocol = .tcp ∧
        (how = 1 ∧ net' = (tcpSendFin env (setShutdownState net id) id).1 ∨
         how = 2 ∧ net' = setShutdownState (tcpSendFin env net id).1 id)) := by
  unfold sysShutdown at h
  split at h
  · cases h
    exact .inl rfl
  rename_i hfd
  split at h
  · cases h
    exact .inl rfl
  rename_i htype
  dsimp only at h
  split at h
  · cases h
  rename_i s hs
  have hfd := not_le.mp hfd
  have htype := not_not.mp htype
  split at h
  · rename_i htcp
    split at h
    · cases h
      exact .inl rfl
    split at h
    · rename_i hhow
      obtain rfl := congrArg Prod.fst (Option.some.inj h)
      exact .inr ⟨_, s, rfl, hs, .inr ⟨hfd, htype, htcp, .inl ⟨hhow, rfl⟩⟩⟩
    split at h
    · rename_i hhow
      obtain rfl := congrArg Prod.fst (Option.some.inj h)
      exact .inr ⟨_, s, rfl, hs, .inr ⟨hfd, htype, htcp, .inr ⟨hhow, rfl⟩⟩⟩
    · cases h
      exact .inl rfl
  · rename_i hudp
    split at h
    · cases h
      exact .inr ⟨_, s, rfl, hs, .inl ⟨hudp, rfl⟩⟩
    · cases h
      exact .inl rfl
  · cases h
    exact .inl rfl

/-! ## The retry thread -/

def tcpMaxRetries : ℕ := 4

/-- `TCP_TIMEWAIT_TIMEOUT_SECONDS`, which is passed on as microseconds. -/
def tcpTimewaitTimeout : ℕ := 60

def countRetry (net : Net) (id : ℕ) : Net :=
  net.modifySock id fun s => { s with sendRetryCount := u8 (s.sendRetryCount + 1) }

/-- The body of the loop of `kernel_thread_network` over the sockets. -/
def retrySocket (env : Env) (net : Net) (id : ℕ) : Net :=
  match net.sockets id with
  | none => net
  | some s =>
    if s.protocol ≠ .tcp then net
    else
      match s.state with
      | .synSent =>
        if tcpMaxRetries < s.sendRetryCount then markSocketAsDeleted net id
        else (tcpSendSyn env (countRetry net id) id).1
      | .established =>
        if !s.ackEstBlocked then net
        else if tcpMaxRetries < s.sendRetryCount then markSocketAsDeleted net id
        else countRetry (tcpSendEstablished env net id) id
      | .timeWait =>
        let net := countRetry net id
        if laterOrSame (subtractTimeUs env.now tcpTimewaitTimeout) s.lastUpdatedTimeUs then
          markSocketAsDeleted (net.modifySock id fun s => { s with state := .closed }) id
        else net
      | _ => net

/-- **TIME_WAIT is over** after 60 microseconds and in the first 60 of a second. -/
theorem timeWait_iff (s t : Fin (2 ^ 63)) (u v : Fin 1000000) :
    laterOrSame (subtractTimeUs ⟨t + 1, v⟩ tcpTimewaitTimeout) ⟨s, u⟩ ↔
      (s * 1000000 + u + 60 : ℕ) ≤ (t + 1) * 1000000 + v ∨ v < 60 ∧ (s : ℕ) ≤ t + 1 := by
  rw [subtractTimeUs, tcpTimewaitTimeout, subtractTime_eq (earlier_eq_false.mpr (by omega))]
  dsimp only [laterOrSame, u32]
  split_ifs <;> simp <;> omega

end CarrotOS
