-- SUMMARY: What the listeners make of datagrams and connections.
import Syslogc.Framing.Decoder
import Syslogc.Pipeline.System

/-!
# Listeners

A datagram is one message; a connection is split into messages by the framing decoder.
Both cut messages at the maximum of their source.
-/

namespace Syslogc.Listener

open Bufio Framing Pipeline

/-- The largest datagram that is read whole. -/
def maxDatagram : Nat := 65535

def trimTrailing (b : Bytes) : Bytes :=
  b.rdropWhile fun c => c = newline || c = cr || c = 0

/-- The body of the read loop of the UDP listener, for a peer that is allowed: the
message that is given to `TryEnqueue`. -/
def receiveDatagram (src : Settings) (max : Nat) (datagram : Bytes) : Option RawMessage :=
  let data := trimTrailing (datagram.take maxDatagram)
  if data = [] then none
  else if max < data.length then some ⟨data.take max, true, src⟩
  else some ⟨data, false, src⟩

/-- How much of a TLS record is needed to recognise one. -/
def tlsRecordHeaderLen : Nat := 3

/-- The buffer of a reader without a given size. -/
def defaultBufSize : Nat := 4096

def looksLikeTLSClientHello : Bytes → Bool
  | a :: b :: c :: _ => a = 0x16 && b = 0x03 && c ≤ 0x04
  | _ => false

/-- The decoder of a connection that delivers these reads; none for a sender that
speaks TLS to a plaintext listener. -/
def openDecoder (tls : Bool) (mode : Mode) (max : Nat) (reads : List Bytes)
    (failure : Failure) : Option Decoder :=
  if tls then some (newDecoder (Reader.new · reads failure) mode max)
  else
    let br := (Reader.new defaultBufSize reads failure).peek tlsRecordHeaderLen
    if looksLikeTLSClientHello br.buffered then none
    else some (newDecoder br.withSize mode max)

/-- The messages the first `n` turns of the loop of `serve` give to `Enqueue`, as long as
it takes them. -/
def serve (src : Settings) : Nat → Decoder → List RawMessage
  | 0, _ => []
  | n + 1, d =>
    let (f, d') := d.next
    (if f.msg = [] then [] else [⟨f.msg, f.truncated, src⟩]) ++
      if f.err = none then serve src n d' else []

end Syslogc.Listener
