import LibBert.Reading.Simulation
import LibBert.Bytes.Endian
import LibBert.Bytes.Defined
import LibBert.Arithmetic
import LibBert.Util
import LibBert.Decoder.Trace
import LibBert.Decoder.Leftover
import LibBert.Decoder.Assignment
import LibBert.Decoder.Shift
import LibBert.Wire.Reference
import LibBert.Wire.Cut
import LibBert.Wire.Unique
import LibBert.RoundTrip
import LibBert.Time
import LibBert.RegexRoundTrip
import LibBert.Framing
import LibBert.Truncation
import LibBert.ListRoundTrip
import LibBert.StringRoundTrip
import LibBert.Bignum
import LibBert.Encoder.Storage
import LibBert.Encoder.Sessions
import LibBert.Relay
import LibBert.Encoder.ShortWrites
import LibBert.Encoder.Numbers
import LibBert.Unambiguous
import LibBert.Containers
import LibBert.Text
import LibBert.FloatField
import LibBert.Decoder.Copy
import LibBert.Memory.Client
import LibBert.Dump.Evident
import LibBert.Dump.Memory
