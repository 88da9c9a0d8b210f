import Dht.Core.Outcome
import Dht.Core.Guarded
import Dht.Lib.Loop
import Dht.Lib.Call
import Dht.Lib.Text
import Dht.Lib.Positional
import Dht.Lib.Buffer
import Dht.Lib.StreamCipher
import Dht.Lib.SendReceive
import Dht.Lib.Session
import Dht.Lib.Squeeze
import Dht.Lib.Stride
import Dht.Compression.Lzma
import Dht.Compression.XZ
import Dht.Crypto.Evp
import Dht.Crypto.AesGcm
import Dht.Crypto.Envelope
import Dht.Color.Codec
import Dht.Color.Units
import Dht.Image.Text
import Dht.Image.Samples
import Dht.Image.Writers
import Dht.Image.Rectangular
import Dht.Image.Formatting
import Dht.Image.Bmp
import Dht.Image.BmpBounds
import Dht.Image.Png
import Dht.Image.Jpeg
import Dht.Audio.Text
import Dht.Audio.Stride
import Dht.Video.Framing
import Dht.Video.Decoding
import Dht.Video.Splitting
import Dht.Media.Extraction
import Dht.Media.Draining
import Dht.Media.Planes
import Dht.Io.MemoryStream
import Dht.Interface.Files
import Dht.Interface.Pipelines
import Dht.Utils.StringCleaner
import Dht.Audio.Lines
import Dht.Compression.Contract
import Dht.Lib.Dialogue
import Dht.Lib.Resumable
import Dht.Lib.Subdivision
import Dht.Liblzma.RangeEncoder
import Dht.Liblzma.RangeDecoder
import Dht.Liblzma.BitTree
import Dht.Liblzma.DistSlot
import Dht.Liblzma.LzmaSymbols
import Dht.Liblzma.Dictionary
import Dht.Liblzma.LzmaDecoder
import Dht.Liblzma.LzmaEncoder
import Dht.Liblzma.LzmaRoundTrip
import Dht.Liblzma.Lzma2Decoder
import Dht.Liblzma.LzDecoder
import Dht.Liblzma.Lzma2RoundTrip
import Dht.Liblzma.Lzma2Props
import Dht.Lib.Crc
import Dht.Liblzma.Crc
import Dht.Liblzma.Vli
import Dht.Liblzma.StreamFlags
import Dht.Liblzma.IndexHash
import Dht.Liblzma.IndexAccepted
