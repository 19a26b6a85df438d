import NetLab.Nfs.Remote
import Mathlib.Logic.Function.Basic

/-!
# Clients at their terminals

The loop of `nfs_client.c` as a whole: a prompt, a line, the call that is made of it and what is
printed of the result. Several clients share a server, and their lines come in any order.
-/

namespace NetLab.Nfs

open NetLab.Posix

/-- What `%s` prints of the buffer of a reply; `behind` is the memory of the client behind it. -/
def Bufnode.text (behind : List Byte) (result : Bufnode) : List Byte :=
  cString (result.buffer.toList ++ littleEndian result.size ++ behind)

/-- The two lines of the branch for `ls`. -/
def printsListing (size : ℤ) (text : List Byte) : List Byte :=
  literal "Read " ++ decimal size ++ literal " files and dirs\n" ++ text ++ literal "\n"

/-- The two texts of a branch whose result is an `int`. -/
def printsNumber (failed : String) (succeeded : List Byte) (result : ℤ) : List Byte :=
  if result < 0 then literal failed else succeeded

/-- What a branch of the `switch` prints of its result. A null pointer is reported by `clnt_perror`,
which writes elsewhere, and no stub returns a result of another kind than its own. -/
def Call.printed (behind : List Byte) : Call → Option Reply → List Byte
  | .nfsLs1 _, some (.node result1) => printsListing result1.size.toInt (result1.text behind)
  | .nfsRead1 _, some (.node result3) => (nfsRemote1Read behind (some result3)).printed
  | .nfsWrite1 _, some (.number result2) =>
      printsNumber "Wrting Error occured, File not exist or access denied.\n"
        (decimal result2 ++ literal " byte written !\n") result2
  | .nfsCd1 _, some (.number result4) =>
      printsNumber "Wrong path !\n" (literal "Curr directory changed\n") result4
  | .getattr1 _, some (.node result5) => result5.text behind ++ literal "\n"
  | .setattr1 _, some (.number result6) =>
      printsNumber "Error in setting attr\n" (literal "Attr set.\n") result6
  | .nfsRemove1 _, some (.number result7) =>
      printsNumber "Error in remove\n" (literal "Removed !\n") result7
  | .nfsMkdir1 _, some (.number result8) =>
      printsNumber "Error in creating dirs\n" (literal "Created !\n") result8
  | .nfsTouch1 _, some (.number result9) =>
      printsNumber "Error in creating dirs\n" (literal "Created !\n") result9
  | _, _ => []

/-- The argument of a call stays in its variable until the next one is made up in it. -/
def Arguments.keep (before : Arguments) : Call → Arguments
  | .nfsLs1 argp => { before with nfsLs1Arg := argp }
  | .nfsWrite1 argp => { before with nfsWrite1Arg := argp }
  | .nfsRead1 argp => { before with nfsRead1Arg := argp }
  | .nfsCd1 argp => { before with nfsCd1Arg := argp }
  | .getattr1 argp => { before with getattr1Arg := argp }
  | .setattr1 argp => { before with setattr1Arg := argp }
  | .nfsRemove1 argp => { before with nfsRemove1Arg := argp }
  | .nfsMkdir1 argp => { before with nfsMkdir1Arg := argp }
  | .nfsTouch1 argp => { before with nfsTouch1Arg := argp }

/-- A line that is typed at a client, and what the system answers to the calls it causes. -/
structure Input where
  client : ℕ
  line : List Byte
  around : Surroundings
  behind : List Byte

/-- The server, and the clients that have not ended. -/
structure Network where
  server : Server
  clients : ℕ → Option Arguments

def Network.withClient (network : Network) (client : ℕ) (arguments : Option Arguments) : Network :=
  { network with clients := Function.update network.clients client arguments }

def prompt : List Byte :=
  literal "terminal@$ "

/-- One round of the loop of `nfs_remote_1`, with what it prints. A client that has ended reads no
line, and there is no state after the end of the server. -/
def Network.types (room : ℕ) (network : Network) (input : Input) : Option (List Byte × Network) :=
  match network.clients input.client with
  | none => some ([], network)
  | some before =>
      match before.nfsRemote1Line input.line with
      | .nullCommand => some (prompt, network.withClient input.client none)
      | .exits text => some (prompt ++ literal text, network.withClient input.client none)
      | .prints text => some (prompt ++ literal text, network)
      | .calls call => do
          let (reply, server) ← network.server.remote room input.around call
          some (prompt ++ call.printed input.behind reply,
            { network with server }.withClient input.client (some (before.keep call)))

/-- What is printed for each of the lines. -/
def Network.session (room : ℕ) (network : Network) :
    List Input → Option (List (List Byte) × Network)
  | [] => some ([], network)
  | input :: inputs => do
      let (printed, network) ← network.types room input
      let (rest, network) ← network.session room inputs
      some (printed :: rest, network)

end NetLab.Nfs
