import Agecrypt.Lib.Simulation
import Agecrypt.Lib.Runs
import Agecrypt.Lib.Bytes
import Agecrypt.Lib.Recognize
import Agecrypt.Agec.Ops
import Agecrypt.Agec.Crypto
import Agecrypt.Agec.Agecore
import Agecrypt.Agec.Base64Text
import Agecrypt.Agec.Channel
import Agecrypt.Agec.Machine
import Agecrypt.Agec.Reader
import Agecrypt.Agec.Armor
import Agecrypt.Agec.Shadow
import Agecrypt.Agec.Unarmor
import Agecrypt.Agec.Writer
import Agecrypt.Agec.Stable
import Agecrypt.Agec.Refine
import Agecrypt.Agec.Sink
import Agecrypt.Agec.Stream
import Agecrypt.Agec.Sealing
import Agecrypt.Agec.Device
import Agecrypt.Agec.PayloadStream
import Agecrypt.Agec.Tamper
import Agecrypt.Agec.Recording
import Agecrypt.Agec.Grammar
import Agecrypt.Agec.HeaderWriter
import Agecrypt.Agec.Bech32
import Agecrypt.Agec.Bech32Text
import Agecrypt.Package.Binding
import Agecrypt.Package.Keyfile
import Agecrypt.Package.Streams
import Agecrypt.Agec.Bech32Errors
import Agecrypt.Agec.KeyText
import Agecrypt.Package.Keys
import Agecrypt.Agec.Nonces
import Agecrypt.Package.Classes
import Agecrypt.Package.Passphrase
import Agecrypt.Package.StreamTable
import Agecrypt.Package.WorkFactor
import Agecrypt.Lib.Heap
import Agecrypt.Package.Blocks
import Agecrypt.Package.Scrubbed
import Agecrypt.Agec.ArmorRoundTrip
import Agecrypt.Agec.Lossless
import Agecrypt.Package.FileSafety
import Agecrypt.Agec.HeaderData
import Agecrypt.Agec.Decryption
import Agecrypt.Agec.RoundTrip
import Agecrypt.Crypto.Own
