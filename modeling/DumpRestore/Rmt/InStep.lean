import DumpRestore.Rmt.Client

/-!
# The two ends of a connection stay in step

A request is made of lines that the server reads into 64 bytes, and a reply of lines that the
client reads into buffers of its own. Between two calls nothing is on its way if every line fits
the buffer it is read into, and if the numbers in it are of the type that they are read as.

* `getstring_line`, `rmtgets_line`: a line that fits is read whole.
* `rmtcall_answer`: the client reads the reply to a command and no more.
* `remote_eq_settled`: one call.
* `remotes_eq_directs`: a sequence of calls.
-/

namespace DumpRestore

namespace Rmt

open Decimal Session

/-! ## Lines -/

theorem getstringLoop_line {line : List UInt8} (hline : 10 ∉ line) {n : ℕ} (hn : line.length < n)
    (rest : List UInt8) : getstringLoop n (line ++ str "\n" ++ rest) = some (line, rest) := by
  induction line generalizing n with
  | nil =>
    obtain ⟨n, rfl⟩ := Nat.exists_eq_succ_of_ne_zero (Nat.ne_zero_of_lt hn)
    rfl
  | cons c line ih =>
    obtain ⟨n, rfl⟩ := Nat.exists_eq_succ_of_ne_zero (Nat.ne_zero_of_lt hn)
    have hc : c ≠ 10 := fun h => hline (h ▸ List.mem_cons_self)
    simp only [List.cons_append, getstringLoop, if_neg hc,
      ih (fun h => hline (List.mem_cons_of_mem _ h)) (Nat.lt_of_succ_lt_succ hn), Option.map_some]

/-- A line that fits 64 bytes with its end. -/
theorem getstring_line {line : List UInt8} (hline : 10 ∉ line) (hlen : line.length ≤ 62)
    (rest : List UInt8) : getstring (line ++ str "\n" ++ rest) = some (line, rest) :=
  getstringLoop_line hline (Nat.lt_succ_of_le hlen) rest

/-- A line that fits the buffer of the client. -/
theorem rmtgets_line {line : List UInt8} (hline : 10 ∉ line) {len : ℕ}
    (hlen : line.length + 2 ≤ len) (rest : List UInt8) :
    rmtgets len (line ++ str "\n" ++ rest) = some (line ++ str "\n", rest) := by
  obtain ⟨len, rfl⟩ := Nat.exists_eq_add_of_le' (Nat.le_of_add_left_le hlen)
  induction line generalizing len with
  | nil => rfl
  | cons c line ih =>
    rw [List.length_cons] at hlen
    obtain ⟨len, rfl⟩ := Nat.exists_eq_succ_of_ne_zero (by omega : len ≠ 0)
    have hc : c ≠ 10 := fun h => hline (h ▸ List.mem_cons_self)
    simp only [List.cons_append, rmtgets, if_neg hc,
      ih (fun h => hline (List.mem_cons_of_mem _ h)) len (by omega), Option.map_some]

theorem newline_not_mem_decimal (z : ℤ) : 10 ∉ decimal z :=
  not_mem_decimal z (by decide) (by decide)

/-- A number of 64 bits. -/
theorem length_decimal_int64 {z : ℤ} (hlo : -2 ^ 63 ≤ z) (hhi : z < 2 ^ 63) :
    (decimal z).length ≤ 20 :=
  length_decimal_le (by decide) (by omega)

theorem getstring_decimal {z : ℤ} (hlo : -2 ^ 63 ≤ z) (hhi : z < 2 ^ 63) (rest : List UInt8) :
    getstring (decimal z ++ str "\n" ++ rest) = some (decimal z, rest) :=
  getstring_line (newline_not_mem_decimal z)
    ((length_decimal_int64 hlo hhi).trans (by decide)) rest

/-! ## Replies -/

/-- What `rmtreply` returns for a reply. -/
def Reply.code : Reply → Except ℤ ℤ
  | .respond n => .ok n
  | .data bytes => .ok bytes.length
  | .ioerror e => .error e.val

/-- The data after the status line of a reply. -/
def Reply.after : Reply → List UInt8
  | .data bytes => bytes
  | _ => []

/-- A reply with a value of 64 bits. -/
def Reply.Fits : Reply → Prop
  | .respond n => -2 ^ 63 ≤ n ∧ n < 2 ^ 63
  | .data bytes => bytes.length ≤ maxRwCount
  | .ioerror _ => True

variable {σ : Type} (host : Host σ)

theorem rmtgets_statusLine {n : ℤ} (hlo : -2 ^ 63 ≤ n) (hhi : n < 2 ^ 63) (rest : List UInt8) :
    rmtgets 30 (statusLine n ++ rest) = some (65 :: (decimal n ++ str "\n"), rest) := by
  have hlen := length_decimal_int64 hlo hhi
  have hline : (10 : UInt8) ∉ 65 :: decimal n :=
    List.not_mem_cons_of_ne_of_not_mem (by decide) (newline_not_mem_decimal n)
  refine rmtgets_line hline ?_ rest
  rw [List.length_cons]
  omega

theorem newline_not_digit : ∀ c ∈ (str "\n").head?, isDigit c = false := by
  intro c hc
  cases hc
  rfl

theorem strtol_line (n : ℤ) : strtol (decimal n ++ str "\n") = n :=
  strtol_decimal n newline_not_digit

/-- A request that one `write` takes. -/
theorem send_eq {request : List UInt8} (hshort : request.length ≤ maxRwCount) (c : Session σ) :
    c.send request = (request.length, { c with toServer := c.toServer ++ request }) := by
  rw [send, Nat.min_eq_left hshort, List.take_of_length_le hshort]

theorem serve_answer (s : Server σ) (opened : Bool) {request : List UInt8} (hne : request ≠ [])
    {p : Reply × Server σ} (hcommand : s.command host request = some (Server.answer host [] p)) :
    serve host ⟨some s, request, [], opened⟩ = ⟨some p.2, [], p.1.bytes host, opened⟩ := by
  have hempty (fuel : ℕ) (s : Server σ) (out : List UInt8) :
      serveLoop host fuel ⟨some s, [], out, opened⟩ = ⟨some s, [], out, opened⟩ := by
    cases fuel with
    | zero => rfl
    | succ fuel => rfl
  obtain ⟨fuel, hfuel⟩ := Nat.exists_eq_succ_of_ne_zero
    fun h => hne (List.length_eq_zero_iff.mp h)
  simp only [serve, hfuel, serveLoop, hcommand, Server.answer, hempty, List.nil_append]

/-- **A call reads the reply to its command and no more.** -/
theorem rmtreply_answer (s : Server σ) (opened : Bool) {request : List UInt8} (hne : request ≠ [])
    {p : Reply × Server σ} (hcommand : s.command host request = some (Server.answer host [] p))
    (hfits : p.1.Fits) :
    rmtreply host ⟨some s, request, [], opened⟩ =
      some (p.1.code, ⟨some p.2, [], p.1.after, opened⟩) := by
  obtain ⟨reply, s'⟩ := p
  rw [rmtreply, serve_answer host s opened hne hcommand]
  cases reply with
  | respond n =>
    have hgets := rmtgets_statusLine hfits.1 hfits.2 []
    rw [List.append_nil] at hgets
    simp only [Reply.bytes, hgets, Option.bind_eq_bind, Option.bind_some, strtol_line]
    rfl
  | data bytes =>
    have hlen : bytes.length ≤ 0x7ffff000 := hfits
    simp only [Reply.bytes, if_pos (show bytes.length ≤ maxRwCount from hfits),
      rmtgets_statusLine (n := bytes.length) (by omega) (by omega) bytes,
      Option.bind_eq_bind, Option.bind_some, strtol_line]
    rfl
  | ioerror e =>
    obtain ⟨hnewline, hshort⟩ := (host.strerror e).property
    have hdecimal := length_decimal_int64 (z := e.val) (by omega) (by omega)
    have hbytes : (Reply.ioerror e).bytes host =
        69 :: decimal e.val ++ str "\n" ++ ((host.strerror e).val ++ str "\n") := by
      have hlen : (str "E" ++ decimal e.val ++ str "\n" ++ (host.strerror e).val ++
          str "\n").length ≤ bufsiz - 1 := by
        have hE : (str "E").length = 1 := rfl
        have hline : (str "\n").length = 1 := rfl
        simp only [List.length_append, bufsiz]
        omega
      rw [Reply.bytes, errorLines, List.take_of_length_le hlen]
      simp only [List.append_assoc]
      rfl
    have hcodeline : (10 : UInt8) ∉ 69 :: decimal e.val :=
      List.not_mem_cons_of_ne_of_not_mem (by decide) (newline_not_mem_decimal _)
    have hcodelen : (69 :: decimal (e.val : ℤ)).length + 2 ≤ 30 := by
      rw [List.length_cons]
      omega
    have hcode := rmtgets_line hcodeline hcodelen ((host.strerror e).val ++ str "\n")
    have hmsglen : (host.strerror e).val.length + 2 ≤ bufsiz :=
      (Nat.add_le_add_right hshort 2).trans (by decide)
    have hmsg := rmtgets_line hnewline hmsglen []
    rw [List.append_nil] at hmsg
    have hatoi : atoi (decimal e.val ++ str "\n") = e.val :=
      atoi_decimal (by omega) (by omega) newline_not_digit
    simp only [hbytes, hcode, Option.bind_eq_bind, Option.bind_some]
    simp only [List.cons_append, hmsg, Option.bind_some, hatoi]
    rfl

/-- The same of a request that is sent at once. -/
theorem rmtcall_answer (s : Server σ) (opened : Bool) {request : List UInt8} (hne : request ≠ [])
    (hshort : request.length ≤ maxRwCount) {p : Reply × Server σ}
    (hcommand : s.command host request = some (Server.answer host [] p)) (hfits : p.1.Fits) :
    rmtcall host request (boundary s opened) =
      some (p.1.code, ⟨some p.2, [], p.1.after, opened⟩) := by
  rw [rmtcall, send_eq hshort]
  dsimp only
  rw [if_neg (not_not.mpr rfl)]
  exact rmtreply_answer host s opened hne hcommand hfits

/-- The letter of a request, and lines with numbers. -/
theorem length_number_request (letter : UInt8) {z : ℤ}
    (hlo : -2 ^ 63 ≤ z) (hhi : z < 2 ^ 63) : ([letter] ++ decimal z ++ str "\n").length ≤ 22 := by
  have hdecimal := length_decimal_int64 hlo hhi
  have hline : (str "\n").length = 1 := rfl
  simp only [List.length_append, List.length_singleton]
  omega

theorem length_numbers_request (letter : UInt8) {y z : ℤ}
    (hylo : -2 ^ 63 ≤ y) (hyhi : y < 2 ^ 63) (hlo : -2 ^ 63 ≤ z) (hhi : z < 2 ^ 63) :
    ([letter] ++ decimal y ++ str "\n" ++ decimal z ++ str "\n").length ≤ 43 := by
  have hfirst := length_number_request letter hylo hyhi
  have hdecimal := length_decimal_int64 hlo hhi
  have hline : (str "\n").length = 1 := rfl
  rw [List.length_append, List.length_append]
  omega

/-! ## Requests -/

theorem command_openTape (s : Server σ) {tape : List UInt8} (htape : 10 ∉ tape)
    (hlen : tape.length ≤ 62) {mode : ℕ} {text : List UInt8}
    (htext : rmtflagsTochar mode = some text) (hmode : text.length ≤ 60)
    (hrecovered : recovered mode = mode) :
    s.command host (str "O" ++ tape ++ str "\n" ++ filemode mode text ++ str "\n") =
      some (Server.answer host [] (s.openTape host tape mode)) := by
  obtain ⟨hnewline, hlength⟩ := filemode_line htext
  have hfilemode := getstring_line hnewline (by omega) []
  rw [List.append_nil] at hfilemode
  have hrequest : str "O" ++ tape ++ str "\n" ++ filemode mode text ++ str "\n" =
      79 :: (tape ++ str "\n" ++ (filemode mode text ++ str "\n")) := by
    simp only [List.append_assoc]
    rfl
  rw [hrequest]
  simp only [Server.command, getstring_line htape hlen, hfilemode, Option.bind_eq_bind,
    Option.bind_some, rmtflagsToint_filemode htext, hrecovered]
  rfl

theorem command_closeTape (s : Server σ) :
    s.command host (str "C\n") = some (Server.answer host [] (s.closeTape host)) := rfl

theorem command_status (s : Server σ) :
    s.command host (str "S") = some (Server.answer host [] (s.status host)) := rfl

/-- A number between the first letter of a request and the end of its line. -/
theorem atoi_decimal_int {z : ℤ} (hlo : -2 ^ 31 ≤ z) (hhi : z < 2 ^ 31) : atoi (decimal z) = z := by
  have h : atoi (decimal z ++ []) = z := atoi_decimal hlo hhi nofun
  rwa [List.append_nil] at h

theorem strtol_decimal_int (z : ℤ) : strtol (decimal z) = z := by
  have h : strtol (decimal z ++ []) = z := strtol_decimal z nofun
  rwa [List.append_nil] at h

theorem command_read (s : Server σ) {count : ℕ} (hcount : count < 2 ^ 31) :
    s.command host (str "R" ++ decimal count ++ str "\n") =
      some (Server.answer host [] (s.read host count)) := by
  have hget := getstring_decimal (z := count) (by omega) (by omega) []
  rw [List.append_nil] at hget
  have hrequest : str "R" ++ decimal count ++ str "\n" = 82 :: (decimal count ++ str "\n") := rfl
  rw [hrequest]
  simp only [Server.command, hget, Option.bind_eq_bind, Option.bind_some,
    atoi_decimal_int (z := count) (by omega) (by omega)]
  rfl

theorem command_write (s : Server σ) {buf : List UInt8} (hpos : 1 ≤ buf.length)
    (hlen : buf.length < 2 ^ 31) :
    s.command host (str "W" ++ decimal buf.length ++ str "\n" ++ buf) =
      some (Server.answer host [] (s.write host buf)) := by
  have hget := getstring_decimal (z := buf.length) (by omega) (by omega) buf
  have hrequest : str "W" ++ decimal buf.length ++ str "\n" ++ buf =
      87 :: (decimal buf.length ++ str "\n" ++ buf) := rfl
  rw [hrequest]
  simp only [Server.command, hget, Option.bind_eq_bind, Option.bind_some,
    atoi_decimal_int (z := buf.length) (by omega) (by omega), Int.toNat_natCast, lt_irrefl,
    if_false, List.drop_length, List.take_length, if_neg (by omega : ¬(buf.length : ℤ) < 1)]
  rfl

theorem command_seek (s : Server σ) {offset pos : ℤ} (hlo : -2 ^ 63 ≤ offset)
    (hhi : offset < 2 ^ 63) (hplo : -2 ^ 31 ≤ pos) (hphi : pos < 2 ^ 31) :
    s.command host (str "L" ++ decimal offset ++ str "\n" ++ decimal pos ++ str "\n") =
      some (Server.answer host [] (s.seek host offset pos)) := by
  have hoffset := getstring_decimal hlo hhi (decimal pos ++ str "\n")
  have hpos := getstring_decimal (z := pos) (by omega) (by omega) []
  rw [List.append_nil] at hpos
  have hrequest : str "L" ++ decimal offset ++ str "\n" ++ decimal pos ++ str "\n" =
      76 :: (decimal offset ++ str "\n" ++ (decimal pos ++ str "\n")) := by
    simp only [List.append_assoc]
    rfl
  rw [hrequest]
  simp only [Server.command, hoffset, hpos, Option.bind_eq_bind, Option.bind_some,
    strtol_decimal_int, atoi_decimal_int hplo hphi]
  rfl

theorem command_ioctl (s : Server σ) {cmd count : ℤ} (hlo : -2 ^ 31 ≤ cmd) (hhi : cmd < 2 ^ 31)
    (hclo : -2 ^ 31 ≤ count) (hchi : count < 2 ^ 31) :
    s.command host (str "I" ++ decimal cmd ++ str "\n" ++ decimal count ++ str "\n") =
      some (Server.answer host [] (s.ioctl host cmd count)) := by
  have hcmd := getstring_decimal (z := cmd) (by omega) (by omega) (decimal count ++ str "\n")
  have hcount := getstring_decimal (z := count) (by omega) (by omega) []
  rw [List.append_nil] at hcount
  have hrequest : str "I" ++ decimal cmd ++ str "\n" ++ decimal count ++ str "\n" =
      73 :: (decimal cmd ++ str "\n" ++ (decimal count ++ str "\n")) := by
    simp only [List.append_assoc]
    rfl
  rw [hrequest]
  simp only [Server.command, hcmd, hcount, Option.bind_eq_bind, Option.bind_some,
    atoi_decimal_int hlo hhi, atoi_decimal_int hclo hchi]
  rfl

/-! ## Calls -/

/-- A reply without data, with a value of `k + 1` bits. -/
def Reply.Number (k : ℕ) : Reply → Prop
  | .respond n => -2 ^ k ≤ n ∧ n < 2 ^ k
  | .data _ => False
  | .ioerror _ => True

theorem Reply.Number.after {k : ℕ} {reply : Reply} (h : reply.Number k) : reply.after = [] := by
  cases reply with
  | respond n => rfl
  | data bytes => exact h.elim
  | ioerror e => rfl

theorem Reply.Number.mono {reply : Reply} (h : reply.Number 31) : reply.Number 63 := by
  cases reply with
  | respond n => exact ⟨by linarith [h.1], by linarith [h.2]⟩
  | data bytes => exact h
  | ioerror e => trivial

theorem Reply.Number.fits {reply : Reply} (h : reply.Number 63) : reply.Fits := by
  cases reply with
  | respond n => exact h
  | data bytes => exact h.elim
  | ioerror e => trivial

/-- A value of type `int` comes out of the cut to an `int`. -/
theorem Reply.Number.ofReply_code {reply : Reply} (h : reply.Number 31) :
    Result.ofReply reply.code = reply.result := by
  cases reply with
  | respond n =>
    obtain ⟨hlo, hhi⟩ := h
    rw [Reply.code, Result.ofReply, Reply.result, Int.bmod_eq_of_le] <;> omega
  | data bytes => exact h.elim
  | ioerror e => rfl

theorem openTape_number (s : Server σ) (device : List UInt8) (oflags : ℕ) :
    (s.openTape host device oflags).1.Number 31 := by
  simp only [Server.openTape]
  split
  · trivial
  · exact ⟨by decide, by decide⟩

theorem closeTape_number (s : Server σ) : (s.closeTape host).1.Number 31 := by
  simp only [Server.closeTape]
  split
  · trivial
  · exact ⟨by decide, by decide⟩

theorem write_number (s : Server σ) {buf : List UInt8} (hlen : buf.length < 2 ^ 31) :
    (s.write host buf).1.Number 31 := by
  simp only [Server.write]
  split
  · trivial
  · next n _ _ =>
    have := n.property
    exact ⟨by omega, by omega⟩

theorem mtcount_number (s : Server σ) (op : ℤ) {count : ℤ} (hlo : -2 ^ 31 ≤ count)
    (hhi : count < 2 ^ 31) : (s.mtcount host op count).1.Number 31 := by
  simp only [Server.mtcount]
  split
  · trivial
  · exact ⟨hlo, hhi⟩

theorem ioctl_number (s : Server σ) (op : ℤ) {count : ℤ} (hlo : -2 ^ 31 ≤ count)
    (hhi : count < 2 ^ 31) : (s.ioctl host op count).1.Number 31 := by
  simp only [Server.ioctl]
  split
  · exact ⟨by decide, by decide⟩
  · split
    · split
      · trivial
      · exact mtcount_number host s _ hlo hhi
    · exact mtcount_number host s _ hlo hhi

theorem lseek_number (s : Server σ) (offset whence : ℤ) :
    (s.lseek host offset whence).1.Number 63 := by
  simp only [Server.lseek]
  split
  · trivial
  · next n _ _ => exact ⟨by omega, by omega⟩

theorem mtop_number (s : Server σ) (op count : ℤ) {rval : ℤ} (hrval : rval < 2 ^ 31) :
    (s.mtop host op count rval).1.Number 63 := by
  simp only [Server.mtop]
  split
  · trivial
  · split
    · trivial
    · exact ⟨by omega, by omega⟩

theorem seek_number (s : Server σ) (count pos : ℤ) : (s.seek host count pos).1.Number 63 := by
  simp only [Server.seek]
  split
  · exact lseek_number host s count pos
  · split
    · split
      · have hbuffer := mtop_number host s 24 0x10000800 (by decide : (0 : ℤ) < 2 ^ 31)
        split
        · next s' heq =>
          split
          · split
            · trivial
            · next n _ _ => exact ⟨by omega, by omega⟩
          · have hrange := Int.bmod_lt (x := count) (m := 2 ^ 32) (by decide)
            exact mtop_number host s' 22 _ (by omega)
        · next reply s' _ heq =>
          rw [heq] at hbuffer
          exact hbuffer
      · split
        · exact lseek_number host s 0 1
        · exact lseek_number host s count 0
    · trivial

/-- `S` answers with an error or with a status. -/
theorem status_reply (s : Server σ) :
    (∃ e s', s.status host = (.ioerror e, s')) ∨
      ∃ m s', s.status host = (.data (Mtget.image m), s') := by
  simp only [Server.status]
  split
  · exact .inl ⟨_, _, rfl⟩
  · exact .inr ⟨_, _, rfl⟩

/-- The result of a call, with nothing on its way. -/
def Call.settled (s : Server σ) (opened : Bool) (call : Call) : Result × Session σ :=
  let (result, s, opened) := call.direct host s opened
  (result, boundary s opened)

/-- The condition under which a call is exact. A device has at most 62 bytes; the names of the
flags have 60 and give the mode back; `rmtread` asks for less than `2 ^ 31` bytes, and the server
can read; one `write` takes the data of `rmtwrite`. -/
def Call.Meets (s : Server σ) : Call → Prop
  | .rmtopen tape mode => tape.length ≤ 62 ∧
    (∃ text, rmtflagsTochar mode = some text ∧ text.length ≤ 60) ∧ recovered mode = mode
  | .rmtread count => count < 2 ^ 31 ∧ (host.read s.tape count s.host).1.isOk
  | .rmtwrite buf => buf.length ≤ maxRwCount
  | _ => True

/-- A call whose reply is a value of type `int`. -/
theorem rmtcall_int (s : Server σ) (opened : Bool) {request : List UInt8} (hne : request ≠ [])
    (hshort : request.length ≤ maxRwCount) {p : Reply × Server σ}
    (hcommand : s.command host request = some (Server.answer host [] p))
    (hint : p.1.Number 31) :
    ((rmtcall host request (boundary s opened)).bind fun r => some (Result.ofReply r.1, r.2)) =
      some (p.1.result, boundary p.2 opened) := by
  rw [rmtcall_answer host s opened hne hshort hcommand hint.mono.fits, hint.after, Option.bind_some,
    hint.ofReply_code]
  rfl

theorem rmtopen_eq_settled (s : Server σ) (opened : Bool) (tape : List UInt8) (mode : ℕ)
    (htyped : (Call.rmtopen tape mode).Typed) (hmeets : (Call.rmtopen tape mode).Meets host s) :
    (Call.rmtopen tape mode).remote host (boundary s opened) =
      some ((Call.rmtopen tape mode).settled host s opened) := by
  obtain ⟨hlen, ⟨text, htext, hshort⟩, hrecovered⟩ := hmeets
  have hcommand := command_openTape host s htyped.1 hlen htext hshort hrecovered
  have hfits : (str "O" ++ tape ++ str "\n" ++ filemode mode text ++ str "\n").length ≤
      maxpathlen - 1 := by
    have hO : (str "O").length = 1 := rfl
    have hline : (str "\n").length = 1 := rfl
    have hmode := (filemode_line htext).2
    simp only [List.length_append, maxpathlen]
    omega
  have hcall := rmtcall_int host s true (by simp [str]) (hfits.trans (by decide)) hcommand
    (openTape_number host s tape mode)
  simp only [Call.remote, Session.rmtopen, htext, Option.bind_eq_bind, Option.bind_some,
    List.take_of_length_le hfits]
  exact hcall

theorem rmtclose_eq_settled (s : Server σ) (opened : Bool) :
    Call.rmtclose.remote host (boundary s opened) = some (Call.rmtclose.settled host s opened) := by
  cases opened with
  | false => rfl
  | true =>
    have hcall := rmtcall_answer host s true (by decide) (by decide) (command_closeTape host s)
      (closeTape_number host s).mono.fits
    simp only [Call.remote, Session.rmtclose, boundary, if_true] at hcall ⊢
    rw [hcall, (closeTape_number host s).after]
    simp only [Option.bind_eq_bind, Option.bind_some, (closeTape_number host s).ofReply_code]
    rfl

theorem bmod_length {bytes : List UInt8} (hlen : bytes.length < 2 ^ 31) :
    (bytes.length : ℤ).bmod (2 ^ 32) = bytes.length := by
  rw [Int.bmod_eq_of_le] <;> omega

/-- `rmtread` reads the data that the value of its call announces. -/
theorem rmtread_data {c c' : Session σ} {count : ℕ} {n : ℤ} {bytes : List UInt8}
    (hcall : c.rmtcall host (str "R" ++ decimal (count % 2 ^ 32 : ℕ) ++ str "\n") =
      some (.ok n, c')) (hn : n.bmod (2 ^ 32) = bytes.length) (hbytes : c'.toClient = bytes) :
    c.rmtread host count = some (.data bytes, { c' with toClient := [] }) := by
  have hneg : ¬(bytes.length : ℤ) < 0 := Int.not_lt.mpr (Int.natCast_nonneg _)
  rw [Session.rmtread, hcall]
  simp only [Option.bind_eq_bind, Option.bind_some, hn, hbytes, Int.toNat_natCast, if_neg hneg,
    lt_irrefl, if_false, List.take_length, List.drop_length]
  rfl

theorem rmtread_eq_settled (s : Server σ) (opened : Bool) {count : ℕ}
    (hmeets : (Call.rmtread count).Meets host s) :
    (Call.rmtread count).remote host (boundary s opened) =
      some ((Call.rmtread count).settled host s opened) := by
  obtain ⟨hcount, hread⟩ := hmeets
  have hcommand := command_read host s hcount
  obtain ⟨data, h, heq⟩ : ∃ data h, host.read s.tape count s.host = (.ok data, h) := by
    cases hread' : host.read s.tape count s.host with
    | mk result h =>
      rw [hread'] at hread
      cases result with
      | error e => cases hread
      | ok data => exact ⟨data, h, rfl⟩
  have hreply : s.read host count = (.data data.val, { s with host := h }) := by
    simp only [Server.read, heq]
  have hlen : data.val.length ≤ maxRwCount := data.property.2
  rw [hreply] at hcommand
  generalize data.val = bytes at hreply hcommand hlen
  have hfits : (Reply.data bytes).Fits := hlen
  have hrequest : (str "R" ++ decimal count ++ str "\n").length ≤ 22 :=
    length_number_request 82 (by omega) (by omega)
  have hcall := rmtcall_answer host s opened (by simp [str]) (hrequest.trans (by decide)) hcommand
    hfits
  have hmod : count % 2 ^ 32 = count := Nat.mod_eq_of_lt (hcount.trans (by decide))
  rw [← hmod] at hcall
  rw [Call.remote, rmtread_data host hcall (bmod_length (hlen.trans_lt (by decide))) rfl,
    Call.settled, Call.direct,
    Call.handle, hreply]
  rfl

theorem rmtwrite_eq_settled (s : Server σ) (opened : Bool) {buf : List UInt8}
    (htyped : (Call.rmtwrite buf).Typed) (hmeets : (Call.rmtwrite buf).Meets host s) :
    (Call.rmtwrite buf).remote host (boundary s opened) =
      some ((Call.rmtwrite buf).settled host s opened) := by
  have hbuf : buf.length ≤ maxRwCount := hmeets
  have hint : buf.length < 2 ^ 31 := hbuf.trans_lt (by decide)
  have hnumber := write_number host s hint
  have hline : (str "W" ++ decimal buf.length ++ str "\n").length ≤ 22 :=
    length_number_request 87 (by omega) (by omega)
  have hreply := rmtreply_answer host s opened (by simp [str]) (command_write host s htyped.1 hint)
    hnumber.mono.fits
  simp only [Call.remote, Session.rmtwrite, send_eq (hline.trans (by decide)), send_eq hbuf,
    boundary, List.nil_append, ne_eq, not_true_eq_false, if_false, hreply, hnumber.after,
    Option.bind_eq_bind, Option.bind_some, hnumber.ofReply_code]
  rfl

theorem rmtseek_eq_settled (s : Server σ) (opened : Bool) {offset pos : ℤ}
    (htyped : (Call.rmtseek offset pos).Typed) :
    (Call.rmtseek offset pos).remote host (boundary s opened) =
      some ((Call.rmtseek offset pos).settled host s opened) := by
  obtain ⟨hlo, hhi, hplo, hphi⟩ := htyped
  have hnumber := seek_number host s offset pos
  have hrequest : (str "L" ++ decimal offset ++ str "\n" ++ decimal pos ++ str "\n").length ≤ 43 :=
    length_numbers_request 76 hlo hhi (by omega) (by omega)
  have hcall := rmtcall_answer host s opened (by simp [str]) (hrequest.trans (by decide))
    (command_seek host s hlo hhi hplo hphi) hnumber.fits
  simp only [Call.remote, Session.rmtseek, hcall, hnumber.after, Option.bind_eq_bind,
    Option.bind_some, Call.settled, Call.direct, Call.asks, Call.handle, if_true]
  cases hreply : (s.seek host offset pos).1 with
  | respond n => rfl
  | data bytes => exact (hreply ▸ hnumber : (Reply.data bytes).Number 63).elim
  | ioerror e => rfl

theorem rmtstatus_eq_settled (s : Server σ) (opened : Bool) :
    Call.rmtstatus.remote host (boundary s opened) =
      some (Call.rmtstatus.settled host s opened) := by
  cases opened with
  | false => rfl
  | true =>
    obtain ⟨e, s', hreply⟩ | ⟨m, s', hreply⟩ := status_reply host s
    · have hcall := rmtcall_answer host s true (by decide) (by decide) (command_status host s)
        (by rw [hreply]; trivial)
      simp only [Call.remote, Session.rmtstatus, boundary, if_true] at hcall ⊢
      rw [hcall]
      simp only [hreply, Option.bind_eq_bind, Option.bind_some, Reply.code, Call.settled,
        Call.direct, Call.asks, Call.handle, if_true]
      rfl
    · have hlen := m.length_image
      have hcall := rmtcall_answer host s true (by decide) (by decide) (command_status host s)
        (by rw [hreply]; show m.image.length ≤ maxRwCount; rw [hlen]; decide)
      simp only [Call.remote, Session.rmtstatus, boundary, if_true] at hcall ⊢
      rw [hcall]
      generalize m.image = bytes at hlen hreply
      have hneg : ¬(bytes.length : ℤ) < 0 := Int.not_lt.mpr (Int.natCast_nonneg _)
      have hsize : (bytes.length : ℤ) = sizeofMtget := congrArg Nat.cast hlen
      simp only [hreply, Option.bind_eq_bind, Option.bind_some, Reply.code, Reply.after,
        Call.settled, Call.direct, Call.asks, Call.handle, if_true,
        bmod_length (hlen.trans_lt (by decide)), Int.toNat_natCast, if_neg hneg,
        lt_irrefl, if_false, if_pos hsize, List.take_length, List.drop_length]
      rfl

theorem rmtioctl_eq_settled (s : Server σ) (opened : Bool) {cmd count : ℤ}
    (htyped : (Call.rmtioctl cmd count).Typed) :
    (Call.rmtioctl cmd count).remote host (boundary s opened) =
      some ((Call.rmtioctl cmd count).settled host s opened) := by
  obtain ⟨hlo, hhi, hclo, hchi⟩ := htyped
  by_cases hneg : count < 0
  · have hasks : (Call.rmtioctl cmd count).asks opened = false := by
      simp only [Call.asks, decide_eq_false_iff_not]
      omega
    simp only [Call.remote, Session.rmtioctl, if_pos hneg, Call.settled, Call.direct, hasks]
    rfl
  · have hasks : (Call.rmtioctl cmd count).asks opened = true := by
      simp only [Call.asks, decide_eq_true_eq]
      omega
    have hrequest : (str "I" ++ decimal cmd ++ str "\n" ++ decimal count ++ str "\n").length ≤ 43 :=
      length_numbers_request 73 (by omega) (by omega) (by omega) (by omega)
    have hcall := rmtcall_int host s opened (by simp [str]) (hrequest.trans (by decide))
      (command_ioctl host s hlo hhi hclo hchi) (ioctl_number host s cmd hclo hchi)
    simp only [Call.remote, Session.rmtioctl, if_neg hneg, Call.settled, Call.direct, hasks,
      if_true]
    exact hcall

/-- **One call**: it reaches the server with its arguments, returns the server's result, and leaves
nothing on its way. -/
theorem remote_eq_settled (s : Server σ) (opened : Bool) (call : Call) (htyped : call.Typed)
    (hmeets : call.Meets host s) :
    call.remote host (boundary s opened) = some (call.settled host s opened) := by
  cases call with
  | rmtopen tape mode => exact rmtopen_eq_settled host s opened tape mode htyped hmeets
  | rmtclose => exact rmtclose_eq_settled host s opened
  | rmtread count => exact rmtread_eq_settled host s opened hmeets
  | rmtwrite buf => exact rmtwrite_eq_settled host s opened htyped hmeets
  | rmtseek offset pos => exact rmtseek_eq_settled host s opened htyped
  | rmtstatus => exact rmtstatus_eq_settled host s opened
  | rmtioctl cmd count => exact rmtioctl_eq_settled host s opened htyped

/-! ## Sequences of calls -/

/-- Every call of a sequence meets the condition where it is made. -/
def MeetAll : List Call → Server σ → Bool → Prop
  | [], _, _ => True
  | call :: calls, s, opened =>
    call.Meets host s ∧
      MeetAll calls (call.direct host s opened).2.1 (call.direct host s opened).2.2

/-- **The two ends stay in step**: every call of a sequence returns the server's result for its
arguments and leaves nothing on its way. -/
theorem remotes_eq_directs (calls : List Call) (s : Server σ) (opened : Bool)
    (htyped : ∀ call ∈ calls, call.Typed) (hmeets : MeetAll host calls s opened) :
    remotes host calls (boundary s opened) = some (directs host calls s opened) := by
  induction calls generalizing s opened with
  | nil => rfl
  | cons call calls ih =>
    obtain ⟨hcall, hcalls⟩ := hmeets
    have hstep := remote_eq_settled host s opened call (htyped call List.mem_cons_self) hcall
    have hrest := ih _ _ (fun call h => htyped call (List.mem_cons_of_mem _ h)) hcalls
    simp only [remotes, hstep, Call.settled, Option.bind_eq_bind, Option.bind_some, hrest]
    rfl

theorem length_take_min_le {n : ℤ} (hn : 0 ≤ n) (h : List UInt8) :
    ((h.take (min n.toNat maxRwCount)).length : ℤ) ≤ n ∧
      (h.take (min n.toNat maxRwCount)).length ≤ maxRwCount := by
  rw [List.length_take]
  omega

/-- A machine with one file, which is a queue: data is written at its end and read from its
front. -/
def queue : Host (List UInt8) where
  openTape _ _ h := (.ok 3, h)
  close _ h := (.ok (), h)
  lseek _ _ _ h := (.ok 0, h)
  read _ n h := if hn : 0 ≤ n then
      (.ok ⟨h.take (min n.toNat maxRwCount), length_take_min_le hn h⟩,
        h.drop (min n.toNat maxRwCount))
    else (.error 14, h)
  write _ data h := (.ok ⟨data.length, le_rfl⟩, h ++ data)
  mtioctop _ _ _ h := (.error 25, h)
  mtiocget _ h := (.error 25, h)
  mtiocpos _ h := (.error 25, h)
  swaplong := id
  strerror _ := ⟨[], List.not_mem_nil, Nat.zero_le _⟩

/-- A server at its start. -/
def start : Server (List UInt8) := ⟨none, false, false, []⟩

theorem remotes_queue :
    let calls := [.rmtopen (str "/dev/st0") 2, .rmtwrite [1, 2, 3], .rmtread 2, .rmtseek 0 1,
      .rmtstatus, .rmtioctl 1 1, .rmtclose]
    remotes queue calls (boundary start false) = some (directs queue calls start false) :=
  remotes_eq_directs queue _ start false
    (by
      intro call hcall
      simp only [List.mem_cons, List.not_mem_nil, or_false] at hcall
      rcases hcall with rfl | rfl | rfl | rfl | rfl | rfl | rfl
      · exact ⟨by decide, by decide, by decide, by decide⟩
      · exact ⟨by decide, by decide⟩
      · show 2 < 2 ^ 64
        decide
      · exact ⟨by decide, by decide, by decide, by decide⟩
      · trivial
      · exact ⟨by decide, by decide, by decide, by decide⟩
      · trivial)
    ⟨⟨by decide, ⟨_, rfl, by decide⟩, by decide⟩, (by decide : 3 ≤ maxRwCount),
      ⟨by decide, by decide⟩, trivial, trivial, trivial, trivial, trivial⟩

/-- The end of a device name of 63 bytes is left to the server, which takes the flags after it for
a command that does not exist. -/
theorem not_in_step : ¬∀ (σ : Type) (host : Host σ) (calls : List Call) (s : Server σ)
    (opened : Bool), (∀ call ∈ calls, call.Typed) →
      remotes host calls (boundary s opened) = some (directs host calls s opened) := by
  intro h
  have hcalls := h _ queue [.rmtopen (List.replicate 63 97) 0] start false
    (by
      intro call hcall
      rw [List.mem_singleton.mp hcall]
      exact ⟨by decide, by decide, by decide, by decide⟩)
  have hservers := congrArg (Option.map (List.map fun r => r.2.server.isSome)) hcalls
  revert hservers
  decide

end Rmt

end DumpRestore
