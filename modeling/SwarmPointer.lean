import SwarmPointer.Ed25519.GoVerify
import SwarmPointer.Ed25519.Signing
import SwarmPointer.Ed25519.Verify
import SwarmPointer.Federation.Reencoding
import SwarmPointer.Jcs.Canonical
import SwarmPointer.Jcs.Strings
import SwarmPointer.Lib.Base64
import SwarmPointer.Lib.Keyset
import SwarmPointer.Protocol.Diagnostic
import SwarmPointer.Protocol.GoVerify
import SwarmPointer.Protocol.Mining
import SwarmPointer.Protocol.Order
import SwarmPointer.Protocol.Patching
import SwarmPointer.Relay.Answers
import SwarmPointer.Relay.Blocking
import SwarmPointer.Relay.Decision
import SwarmPointer.Relay.Index
import SwarmPointer.Relay.Indexes
import SwarmPointer.Relay.Serving
import SwarmPointer.Relay.Submissions
